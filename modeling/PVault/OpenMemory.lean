import PVault.Open
import PVault.Drift

/-!
# What an open leaves in the memory of its caller (`src/store.c`)

`open_common` fills structures of its caller: the vault, whose pointers it sets as it goes,
the header, and for the consuming entry points the buffer of the credential. `Open.lean`
says what it computes; here it is written as the source has it, with one status that every
step inspects, over the memory of the caller.

* `openCommonInto_eq` — it is the open of `Open.lean`, whose result the caller receives:
  the vault and the header, or a vault of zeros and the header as it was.
* `open_fails_closed` — what follows for each entry point, whatever the system answers.
-/

namespace PVault

open Binary Conc

/-! ## The memory of the caller -/

/-- `pv_vault` in the memory of a caller: `arena.base`, `records` and `vmk` may be null. -/
structure VaultMemory (Hash : Type) where
  arena : Option Arena
  vaultId : Block pvVaultIdBytes
  deviceId : Block pvDeviceIdBytes
  generation : UInt64
  createdMs : Int64
  updatedMs : Int64
  records : Option (List (Record Slice))
  recordCapacity : Nat
  vmk : Option (Block pvWrapKeyBytes)
  sourceHash : Hash
  dirty : Bool
  path : Bytes

/-- All bytes are zero. -/
def VaultMemory.zero {Hash : Type} (zeroHash : Hash) : VaultMemory Hash where
  arena := none
  vaultId := Block.zero _
  deviceId := Block.zero _
  generation := 0
  createdMs := 0
  updatedMs := 0
  records := none
  recordCapacity := 0
  vmk := none
  sourceHash := zeroHash
  dirty := false
  path := []

/-- A vault in memory. -/
def Vault.memory {Hash : Type} (vault : Vault Hash) : VaultMemory Hash where
  arena := some vault.arena
  vaultId := vault.vaultId
  deviceId := vault.deviceId
  generation := vault.generation
  createdMs := vault.createdMs
  updatedMs := vault.updatedMs
  records := some vault.records
  recordCapacity := vault.recordCapacity
  vmk := some vault.vmk
  sourceHash := vault.sourceHash
  dirty := vault.dirty
  path := vault.path

/-- The vault in memory, once all pointers are set. -/
def VaultMemory.vault? {Hash : Type} (memory : VaultMemory Hash) : Option (Vault Hash) :=
  match memory.arena, memory.records, memory.vmk with
  | some arena, some records, some vmk => some
    { arena
      vaultId := memory.vaultId
      deviceId := memory.deviceId
      generation := memory.generation
      createdMs := memory.createdMs
      updatedMs := memory.updatedMs
      records
      recordCapacity := memory.recordCapacity
      vmk
      sourceHash := memory.sourceHash
      dirty := memory.dirty
      path := memory.path }
  | _, _, _ => none

/-- `pv_buffer`. -/
structure PvBuffer where
  /-- null, or the `len` bytes it points to -/
  data : Option Bytes
  secure : Bool
  deriving DecidableEq

/-- `pv_buffer_secure_free`: the bytes are erased and released. -/
def pvBufferSecureFree (_ : PvBuffer) : PvBuffer := ⟨none, false⟩

/-- What the caller of an open hands over. -/
structure Caller (Hash : Type) where
  vault : VaultMemory Hash
  /-- null, or the header -/
  header : Option FileHeader
  /-- null, or the buffer of the credential that a consuming call gives away -/
  consumed : Option PvBuffer

/-- `pv_buffer_secure_free(consumed_credential)`. -/
def Caller.release {Hash : Type} (caller : Caller Hash) : Caller Hash :=
  { caller with consumed := caller.consumed.map pvBufferSecureFree }

@[simp] theorem Caller.release_release {Hash : Type} (caller : Caller Hash) :
    caller.release.release = caller.release := by
  rcases caller with ⟨vault, header, _ | buffer⟩ <;> rfl

/-! ## Filling the vault -/

section Model

variable {Hash : Type} (zeroHash : Hash)

/-- `pv_model_destroy`. -/
def pvModelDestroy (_ : VaultMemory Hash) : VaultMemory Hash := VaultMemory.zero zeroHash

/-- `pv_model_init` over the memory of the caller. -/
def pvModelInitInto (path : Bytes) (arenaMem vmkMem : SecureAlloc) (vault : VaultMemory Hash) :
    PvStatus × VaultMemory Hash :=
  if path.length ≥ pathMax then (.errUsage, vault)
  else
    let vault := VaultMemory.zero zeroHash
    match pvArenaInit pvArenaCapacity arenaMem with
    | .error status => (status, vault)
    | .ok arena =>
      let vault := { vault with arena := some arena }
      match vmkMem with
      | .noMemory => (.errNomem, { vault with arena := none })
      | .notLocked => (.errSecureMemory, { vault with arena := none })
      | .allocated =>
        let vault := { vault with vmk := some (Block.zero _) }
        match pvArenaAlloc arena (pvInitialRecordCapacity * sizeofRecord) 8 with
        | none => (.errLimit, pvModelDestroy zeroHash vault)
        | some (_, arena) => (.ok,
          { vault with
            arena := some arena
            records := some []
            recordCapacity := pvInitialRecordCapacity
            path })

/-- `pv_cbor_decode` into the memory of the caller, after `pv_model_init` set its pointers. -/
def cborDecodeInto (env : DecodeEnv) (input : Bytes) (vault : VaultMemory Hash) :
    PvStatus × VaultMemory Hash :=
  match vault.vault? with
  | none => (.errUsage, vault)
  | some vault => ((cborDecode env input vault).1, (cborDecode env input vault).2.memory)

variable {zeroHash}

/-- What `pv_model_init` leaves in memory that was zero: a vault, or zeros. -/
theorem pvModelInitInto_eq (path : Bytes) (arenaMem vmkMem : SecureAlloc) :
    pvModelInitInto zeroHash path arenaMem vmkMem (VaultMemory.zero zeroHash) =
      match pvModelInit zeroHash path arenaMem vmkMem with
      | .error status => (status, VaultMemory.zero zeroHash)
      | .ok vault => (.ok, vault.memory) := by
  rw [pvModelInitInto, pvModelInit]
  split
  · rfl
  · cases pvArenaInit pvArenaCapacity arenaMem with
    | error status => rfl
    | ok arena =>
      cases vmkMem with
      | noMemory => rfl
      | notLocked => rfl
      | allocated =>
        dsimp only
        cases pvArenaAlloc arena (pvInitialRecordCapacity * sizeofRecord) 8 with
        | none => rfl
        | some p => rfl

end Model

/-! ## Reading whatever the system answers -/

section Reading

/-- An error is not `PV_OK`. -/
def Proper {α : Type} (r : Except PvStatus α) : Prop := r ≠ .error .ok

/-- Whatever the system answers, an error of the program is not `PV_OK`. -/
def FailsProperly {α : Type} (p : FileM (Except PvStatus α)) : Prop :=
  p.Only (fun _ => True) Proper

variable {α : Type}

theorem failsProperly_error {status : PvStatus} (h : status ≠ .ok) :
    FailsProperly (pure (.error status) : FileM (Except PvStatus α)) :=
  fun hok => h (Except.error.inj hok)

theorem failsProperly_call {op : FileOp} {k : FileRes op → FileM (Except PvStatus α)}
    (h : ∀ r, FailsProperly (k r)) : FailsProperly (sys op >>= k) :=
  Prog.only_perform_bind trivial h

theorem failsProperly_bind {β : Type} {p : FileM β} {k : β → FileM (Except PvStatus α)}
    (h : ∀ b, FailsProperly (k b)) : FailsProperly (p >>= k) :=
  p.only_trivial.bind fun b _ => h b

theorem failsProperly_closeAnd {status : PvStatus} (h : status ≠ .ok) :
    FailsProperly (closeAnd status : FileM (Except PvStatus α)) :=
  failsProperly_call fun _ => failsProperly_error h

/-- A program that passes on an error of its first part fails properly, if both parts do. -/
theorem failsProperly_then {β : Type} {p : FileM (Except PvStatus β)}
    {k : Except PvStatus β → FileM (Except PvStatus α)} (hp : FailsProperly p)
    (herr : ∀ status, status ≠ .ok → FailsProperly (k (.error status)))
    (hok : ∀ b, FailsProperly (k (.ok b))) : FailsProperly (p >>= k) := by
  refine hp.bind fun r hr => ?_
  cases r with
  | error status => exact herr status fun h => hr (h ▸ rfl)
  | ok b => exact hok b

theorem failsProperly_openStoreLocation (path : Bytes) : FailsProperly (openStoreLocation path) := by
  refine failsProperly_then ?_ (fun _ => failsProperly_error) fun found => ?_
  · rw [openPrivateParent]
    split
    · next status herr =>
      exact failsProperly_error fun hok => splitParentAndName_error herr (.inl hok)
    · refine failsProperly_call fun r => ?_
      cases r with
      | error e => exact fun h => by cases h
      | ok d =>
        refine failsProperly_call fun r => ?_
        cases r with
        | error e => exact failsProperly_closeAnd (by decide)
        | ok st =>
          dsimp only
          split
          · exact fun h => by cases h
          · exact failsProperly_closeAnd (by decide)
  · refine failsProperly_call fun r => ?_
    cases r with
    | error e => exact failsProperly_closeAnd (by decide)
    | ok st => exact fun h => by cases h

theorem failsProperly_readLoop (host : Host) (node : Node) (passes : Nat) :
    ∀ offset len, FailsProperly (readLoop host node passes offset len) := by
  induction passes with
  | zero => exact fun _ _ h => by cases h
  | succ passes ih =>
    intro offset len
    rw [readLoop]
    split
    · exact fun h => by cases h
    · refine failsProperly_bind fun r => ?_
      cases r with
      | error e => exact fun h => by cases h
      | ok got =>
        dsimp only
        split
        · exact fun h => by cases h
        · exact failsProperly_then (ih _ _) (fun _ => failsProperly_error)
            fun _ h => by cases h

theorem failsProperly_openPrivateSnapshotAt (d : Nat) (name : Bytes) :
    FailsProperly (openPrivateSnapshotAt d name) := by
  refine failsProperly_call fun r => ?_
  cases r with
  | error e => exact nofun
  | ok node =>
    refine failsProperly_call fun r => ?_
    cases r with
    | error e => exact failsProperly_closeAnd (by decide)
    | ok st =>
      dsimp only
      split
      · exact nofun
      · exact failsProperly_closeAnd (by decide)

theorem failsProperly_readOpenedFile {Hash : Type} (so : Sodium Hash) (host : Host) (node : Node)
    (st : Stat) : FailsProperly (readOpenedFile so host node st) := by
  rw [readOpenedFile]
  split
  · exact failsProperly_closeAnd (by decide)
  refine failsProperly_then (failsProperly_readLoop host node _ _ _)
    (fun _ => failsProperly_closeAnd) fun headerData => ?_
  dsimp only
  split
  · next h => exact failsProperly_closeAnd h
  split
  · exact failsProperly_closeAnd (by decide)
  refine failsProperly_call fun r => ?_
  cases r with
  | error e => exact failsProperly_closeAnd (by decide)
  | ok _ =>
  refine failsProperly_then (failsProperly_readLoop host node _ _ _)
    (fun _ => failsProperly_closeAnd) fun ciphertext => ?_
  refine failsProperly_bind fun r => ?_
  cases r with
  | error e => exact failsProperly_closeAnd (by decide)
  | ok extra =>
  dsimp only
  split
  · exact failsProperly_closeAnd (by decide)
  refine failsProperly_call fun r => ?_
  cases r with
  | error e => exact fun h => by cases h
  | ok _ => exact fun h => by cases h

theorem failsProperly_readDiskFile {Hash : Type} (so : Sodium Hash) (host : Host) (path : Bytes) :
    FailsProperly (readDiskFile so host path) := by
  refine failsProperly_then (failsProperly_openStoreLocation path)
    (fun _ => failsProperly_error) fun location => ?_
  refine failsProperly_then ?_ (fun status h => ?_) fun disk => ?_
  · exact failsProperly_then (failsProperly_openPrivateSnapshotAt _ _)
      (fun _ => failsProperly_error) fun _ => failsProperly_readOpenedFile so host _ _
  · exact failsProperly_bind fun _ => failsProperly_error h
  · refine failsProperly_bind fun status => failsProperly_bind fun _ => ?_
    split
    · exact nofun
    · exact nofun

end Reading

/-! ## Opening -/

section Store

variable {Hash : Type} (so : Sodium Hash) (host : Host)
variable {disk : DiskFile Hash} {caller : Caller Hash} {vault : Vault Hash} {env : UnlockEnv}
  {path credential : Bytes} {recovery : Bool}

/-- The end of `open_common`, after the last step that can fill the vault. -/
def finishOpen (disk : DiskFile Hash) (caller : Caller Hash) (status : PvStatus)
    (vault : VaultMemory Hash) : PvStatus × Caller Hash :=
  let status := if status = .ok ∧ vault.vaultId ≠ disk.header.vaultId then .errAuth else status
  let header := if status = .ok then caller.header.map fun _ => disk.header else caller.header
  let vault :=
    if status ≠ .ok ∧ vault.arena.isSome = true then pvModelDestroy so.zeroHash vault else vault
  (status, { caller with vault, header }.release)

/-- The part of `open_common` after the file was read. -/
def openDiskInto (env : UnlockEnv) (path credential : Bytes) (recovery : Bool)
    (disk : DiskFile Hash) (caller : Caller Hash) : PvStatus × Caller Hash :=
  if env.buffer ≠ .allocated then (.errSecureMemory, caller.release)
  else
    let (status, vmk) := unlockVmk so env disk.header credential recovery
    let caller := caller.release
    let (status, plaintext) :=
      if status = .ok then pvCryptoDecryptBody so disk.header vmk disk.ciphertext env.body
      else (status, [])
    let (status, vault) :=
      if status = .ok then pvModelInitInto so.zeroHash path env.arena env.vmk caller.vault
      else (status, caller.vault)
    let (status, vault) :=
      if status = .ok then
        cborDecodeInto env.decode plaintext
          { vault with
            vaultId := disk.header.vaultId
            vmk := vault.vmk.map fun _ => vmk
            sourceHash := disk.hash }
      else (status, vault)
    finishOpen so disk caller status vault

/-- `open_common` over the memory of its caller. -/
def openCommonInto (env : UnlockEnv) (path credential : Bytes) (recovery : Bool)
    (caller : Caller Hash) : FileM (PvStatus × Caller Hash) := do
  let caller := { caller with vault := VaultMemory.zero so.zeroHash }
  match ← readDiskFile so host path with
  | .error status => return (status, caller.release)
  | .ok disk => return openDiskInto so env path credential recovery disk caller

/-- `pv_store_open_password_consume`. -/
def pvStoreOpenPasswordConsume (env : UnlockEnv) (path : Bytes) (caller : Caller Hash) :
    FileM (PvStatus × Caller Hash) :=
  match caller.consumed with
  | none => return (.errUsage, caller)
  | some ⟨none, _⟩ => return (.errUsage, caller.release)
  | some ⟨some password, secure⟩ =>
    if password.length = 0 ∨ secure = false then return (.errUsage, caller.release)
    else openCommonInto so host env path password false caller

/-- `pv_store_open_recovery_consume`. -/
def pvStoreOpenRecoveryConsume (env : UnlockEnv) (path : Bytes) (caller : Caller Hash) :
    FileM (PvStatus × Caller Hash) :=
  match caller.consumed with
  | none => return (.errUsage, caller)
  | some ⟨none, _⟩ => return (.errUsage, caller.release)
  | some ⟨some recoveryKey, secure⟩ =>
    if recoveryKey.length ≠ pvRecoveryKeyBytes ∨ secure = false then
      return (.errUsage, caller.release)
    else openCommonInto so host env path recoveryKey true caller

/-- The result of an open, in the memory of the caller. -/
def Caller.receive (caller : Caller Hash) :
    Except PvStatus (Vault Hash × FileHeader) → PvStatus × Caller Hash
  | .error status => (status, { caller with vault := VaultMemory.zero so.zeroHash }.release)
  | .ok (vault, header) =>
    (.ok, { caller with vault := vault.memory, header := caller.header.map fun _ => header }.release)

variable {so host}

/-- After a failure the vault is destroyed, unless it never held an arena. -/
theorem finishOpen_failed {status : PvStatus} {vault : VaultMemory Hash} (hstatus : status ≠ .ok)
    (hzero : vault.arena = none → vault = VaultMemory.zero so.zeroHash) :
    finishOpen so disk caller.release status vault = caller.receive so (.error status) := by
  rw [finishOpen, if_neg fun h => hstatus h.1, if_neg hstatus, Caller.receive]
  have hvault : (if status ≠ .ok ∧ vault.arena.isSome = true then pvModelDestroy so.zeroHash vault
      else vault) = VaultMemory.zero so.zeroHash := by
    split
    · rfl
    · next h =>
      refine hzero (Option.not_isSome_iff_eq_none.mp fun hsome => h ⟨hstatus, hsome⟩)
  rw [hvault]
  exact congrArg (Prod.mk status) (Caller.release_release { caller with vault := _ })

theorem finishOpen_ok :
    finishOpen so disk caller.release .ok vault.memory = caller.receive so
      (if vault.vaultId ≠ disk.header.vaultId then .error .errAuth else .ok (vault, disk.header)) := by
  by_cases hid : vault.vaultId = disk.header.vaultId
  · rw [if_neg fun h => h hid, finishOpen, if_neg fun h => h.2 hid, if_pos rfl,
      if_neg fun h => h.1 rfl]
    exact congrArg (Prod.mk PvStatus.ok) (Caller.release_release ⟨vault.memory, _, _⟩)
  · -- a payload of another vault id is treated like a failing step
    have hauth : finishOpen so disk caller.release .ok vault.memory =
        finishOpen so disk caller.release .errAuth vault.memory := by
      rw [finishOpen, if_pos ⟨rfl, hid⟩, finishOpen, ite_self]
    rw [if_pos hid, hauth]
    exact finishOpen_failed (by decide) nofun

theorem openDiskInto_eq (env : UnlockEnv) (path credential : Bytes) (recovery : Bool)
    (disk : DiskFile Hash) (hzero : caller.vault = VaultMemory.zero so.zeroHash) :
    openDiskInto so env path credential recovery disk caller =
      caller.receive so (openDisk so env path credential recovery disk) := by
  rw [openDiskInto, openDisk]
  split
  · rw [Caller.receive, ← hzero]
  have hkept : caller.release.vault = VaultMemory.zero so.zeroHash := hzero
  -- from the first failing step on, the status stays and the vault is not touched
  have hfail : ∀ {status : PvStatus}, status ≠ .ok →
      finishOpen so disk caller.release status (VaultMemory.zero so.zeroHash) =
        caller.receive so (.error status) := fun h => finishOpen_failed h fun _ => rfl
  rcases unlockVmk so env disk.header credential recovery with ⟨status, vmk⟩
  by_cases hstatus : status = .ok
  swap
  · simp only [if_neg hstatus, hkept, hfail hstatus]
  subst hstatus
  rcases hbody : pvCryptoDecryptBody so disk.header vmk disk.ciphertext env.body with
    ⟨status, plaintext⟩
  simp only [if_true, hbody, hkept, pvModelInitInto_eq]
  by_cases hstatus : status = .ok
  swap
  · simp only [if_neg hstatus, hfail hstatus]
  subst hstatus
  rcases hinit : pvModelInit so.zeroHash path env.arena env.vmk with status | start
  · have hne : status ≠ .ok := PvStatus.ne_ok (pvModelInit_refused hinit)
    simp only [if_true, if_neg hne, hfail hne]
  have hdecode : cborDecodeInto env.decode plaintext
      { start.memory with
        vaultId := disk.header.vaultId
        vmk := start.memory.vmk.map fun _ => vmk
        sourceHash := disk.hash } =
      let decoded := cborDecode env.decode plaintext
        { start with vaultId := disk.header.vaultId, vmk := vmk, sourceHash := disk.hash }
      (decoded.1, decoded.2.memory) := rfl
  simp only [if_true, hdecode]
  rcases cborDecode env.decode plaintext
    { start with vaultId := disk.header.vaultId, vmk := vmk, sourceHash := disk.hash } with
    ⟨status, vault⟩
  by_cases hstatus : status = .ok
  swap
  · simp only
    exact finishOpen_failed hstatus fun h => (Option.some_ne_none _ h).elim
  subst hstatus
  exact finishOpen_ok

/-- **The open of the caller** is the open, whose result the caller receives. -/
theorem openCommonInto_eq (env : UnlockEnv) (path credential : Bytes) (recovery : Bool)
    (caller : Caller Hash) :
    openCommonInto so host env path credential recovery caller =
      openCommon so host env path credential recovery >>= fun r => pure (caller.receive so r) := by
  rw [openCommonInto, openCommon, Prog.bind_assoc]
  refine congrArg (readDiskFile so host path >>= ·) (funext fun r => ?_)
  cases r with
  | error status => rfl
  | ok disk => exact congrArg Prog.ret (openDiskInto_eq env path credential recovery disk rfl)

/-! ## Failing closed -/

/-- What stands behind an opened vault: the keyslot of the file unwrapped to the master key,
its body decrypted under the body key, and the whole plaintext is the payload that was
decoded into the vault. -/
structure OpenedFrom (so : Sodium Hash) (env : UnlockEnv) (path credential : Bytes) (recovery : Bool)
    (disk : DiskFile Hash) (vmk key : Block pvWrapKeyBytes) (body : Bytes) (payload : Payload)
    (start vault : Vault Hash) : Prop where
  unwrapped : unlockVmk so env disk.header credential recovery = (.ok, vmk)
  key_eq : bodyKey so vmk = .ok key
  authenticated :
    so.aeadDecrypt key disk.header.bodyNonce (serialized disk.header) disk.ciphertext = some body
  plaintext_eq : slice body 4 (getU32Le body 0).toNat = payloadBytes payload
  accepted : payload.Accepted
  started : pvModelInit so.zeroHash path env.arena env.vmk = .ok start
  decoded : Decoded
    { start with vaultId := disk.header.vaultId, vmk := vmk, sourceHash := disk.hash } payload vault

theorem openDisk_opened {header : FileHeader}
    (h : openDisk so env path credential recovery disk = .ok (vault, header)) :
    header = disk.header ∧ ∃ vmk key body payload start,
      OpenedFrom so env path credential recovery disk vmk key body payload start vault := by
  obtain ⟨hheader, vmk, plaintext, start, hunlock, hdecrypt, hinit, hdecode⟩ := openDisk_ok h
  obtain ⟨key, body, hkey, -, hbody, hplain⟩ := pvCryptoDecryptBody_ok hdecrypt
  have hsome : pvCborDecode env.decode plaintext
      { start with vaultId := disk.header.vaultId, vmk := vmk, sourceHash := disk.hash } =
        some (.ok, vault) := by
    rw [← hdecode, cborDecode, Option.some_get]
  have hpos : 0 < ({ start with
      vaultId := disk.header.vaultId, vmk := vmk, sourceHash := disk.hash }).recordCapacity :=
    (pvModelInit_ok hinit).capacity_pos
  obtain ⟨-, payload, hpayload, haccepted, hdecoded⟩ := pvCborDecode_ok hpos hsome
  exact ⟨hheader, vmk, key, body, payload, start, hunlock, hkey, hbody, hplain ▸ hpayload,
    haccepted, hinit, hdecoded⟩

/-- A vault that was opened is about the path, and has the id of the file. -/
theorem OpenedFrom.named {vmk key : Block pvWrapKeyBytes} {body : Bytes} {payload : Payload}
    {start : Vault Hash}
    (h : OpenedFrom so env path credential recovery disk vmk key body payload start vault) :
    vault.path = path ∧ vault.vaultId = disk.header.vaultId := by
  have hstart : start.path = path := pvModelInit_path h.started
  exact ⟨h.decoded.named.1.trans hstart, h.decoded.named.2⟩

/-- What an open leaves: a released credential, and either a vault of zeros and the header
as it was, or the vault and the header of a file from `source`. -/
structure OpenLeaves (so : Sodium Hash) (env : UnlockEnv) (path credential : Bytes)
    (recovery : Bool) (source : DiskFile Hash → Prop) (caller : Caller Hash) (status : PvStatus)
    (after : Caller Hash) : Prop where
  released : after.consumed = caller.consumed.map pvBufferSecureFree
  closed : status ≠ .ok → after.vault = VaultMemory.zero so.zeroHash ∧ after.header = caller.header
  opened : status = .ok → ∃ disk vmk key body payload start vault, source disk ∧
    OpenedFrom so env path credential recovery disk vmk key body payload start vault ∧
    after.vault = vault.memory ∧ after.header = caller.header.map fun _ => disk.header

theorem openDisk_error : Proper (openDisk so env path credential recovery disk) := by
  intro h
  rw [openDisk] at h
  split at h
  · cases h
  split at h
  · split at h
    · split at h
      · next hinit =>
        cases h
        exact pvModelInit_refused hinit (.inl rfl)
      · split at h
        · split at h <;> cases h
        · next hne _ =>
          cases h
          exact hne rfl
    · next hne _ =>
      cases h
      exact hne rfl
  · next hne _ =>
    cases h
    exact hne rfl

/-- What an open leaves, after the file was read or not. -/
theorem openLeaves_read {source : DiskFile Hash → Prop} {r : Except PvStatus (DiskFile Hash)}
    (hr : Proper r) (hsource : ∀ disk, r = .ok disk → source disk) :
    OpenLeaves so env path credential recovery source caller
      (caller.receive so (r.bind (openDisk so env path credential recovery))).1
      (caller.receive so (r.bind (openDisk so env path credential recovery))).2 := by
  have hproper : Proper (r.bind (openDisk so env path credential recovery)) := by
    cases r with
    | error status => exact fun h => hr (congrArg Except.error (Except.error.inj h))
    | ok disk => exact openDisk_error
  rcases hopen : r.bind (openDisk so env path credential recovery) with status | ⟨vault, header⟩
  · refine ⟨rfl, fun _ => ⟨rfl, rfl⟩, fun hok => ?_⟩
    rw [hopen] at hproper
    exact absurd (congrArg Except.error hok) hproper
  · refine ⟨rfl, fun hne => absurd rfl hne, fun _ => ?_⟩
    cases r with
    | error status => cases hopen
    | ok disk =>
      obtain ⟨rfl, vmk, key, body, payload, start, hopened⟩ := openDisk_opened hopen
      exact ⟨disk, vmk, key, body, payload, start, vault, hsource disk rfl, hopened, rfl, rfl⟩

/-- An open reads the file and then works on what it read. -/
theorem openCommonInto_read (env : UnlockEnv) (path credential : Bytes) (recovery : Bool)
    (caller : Caller Hash) :
    openCommonInto so host env path credential recovery caller =
      readDiskFile so host path >>= fun r =>
        pure (caller.receive so (r.bind (openDisk so env path credential recovery))) := by
  rw [openCommonInto_eq, openCommon, Prog.bind_assoc]
  refine congrArg (readDiskFile so host path >>= ·) (funext fun r => ?_)
  cases r <;> rfl

/-- What an open leaves, whatever the system answers. -/
theorem openCommonInto_leaves (env : UnlockEnv) (path credential : Bytes) (recovery : Bool)
    (caller : Caller Hash) :
    (openCommonInto so host env path credential recovery caller).Only (fun _ => True) fun r =>
      OpenLeaves so env path credential recovery (fun _ => True) caller r.1 r.2 := by
  rw [openCommonInto_read]
  exact Prog.Only.bind (failsProperly_readDiskFile so host path) fun r hr =>
    openLeaves_read hr fun _ _ => trivial

/-- A consuming call without a buffer has nothing to release. -/
theorem Caller.release_null (h : caller.consumed = none) :
    caller.release = caller := by
  obtain ⟨vault, header, consumed⟩ := caller
  cases h
  rfl

/-- **Opening fails closed**, whatever the system answers. After an error the vault of the
caller is all zeros and the header as it was; a success means that the master key was
unwrapped, the body authenticated and the whole payload decoded, from the file that the
path leads to. A consuming call releases the credential on every path, also when it refuses
the buffer before it opens anything. -/
theorem open_fails_closed (env : UnlockEnv) (path : Bytes) (caller : Caller Hash) :
    (∀ credential recovery,
      (openCommonInto so host env path credential recovery caller).Only (fun _ => True)
        (fun r => OpenLeaves so env path credential recovery (fun _ => True) caller r.1 r.2) ∧
      ∀ fs, (files true Alone fun _ _ => True).wp
        (openCommonInto so host env path credential recovery caller)
        (fun r fs' => fs' = fs ∧ OpenLeaves so env path credential recovery
          (fun disk => ∃ location, fs.At path location ∧
            fs.Shows so location.dir location.name disk) caller r.1 r.2) fs) ∧
    (pvStoreOpenPasswordConsume so host env path caller).Only (fun _ => True)
      (fun r => r.2.consumed = caller.consumed.map pvBufferSecureFree ∧
        (r = (.errUsage, caller.release) ∨ ∃ password, caller.consumed = some ⟨some password, true⟩ ∧
          OpenLeaves so env path password false (fun _ => True) caller r.1 r.2)) ∧
    (pvStoreOpenRecoveryConsume so host env path caller).Only (fun _ => True)
      (fun r => r.2.consumed = caller.consumed.map pvBufferSecureFree ∧
        (r = (.errUsage, caller.release) ∨ ∃ recoveryKey : Block pvRecoveryKeyBytes,
          caller.consumed = some ⟨some recoveryKey.bytes, true⟩ ∧
          OpenLeaves so env path recoveryKey.bytes true (fun _ => True) caller r.1 r.2)) := by
  refine ⟨fun credential recovery =>
    ⟨openCommonInto_leaves env path credential recovery caller, fun fs => ?_⟩, ?_, ?_⟩
  · rw [openCommonInto_read]
    refine Sem.wp_then (readDiskFile_alone so host fun _ => trivial) fun r fs' h => ?_
    obtain ⟨rfl, hok, herr⟩ := h
    exact ⟨rfl, openLeaves_read (fun h => (herr _ h).1 (.inl rfl)) hok⟩
  · rw [pvStoreOpenPasswordConsume]
    split
    · next hnull => exact ⟨hnull ▸ rfl, .inl (by rw [Caller.release_null hnull])⟩
    · exact ⟨rfl, .inl rfl⟩
    · next password secure hsome =>
      split
      · exact ⟨rfl, .inl rfl⟩
      · next h =>
        obtain rfl : secure = true := Bool.eq_true_of_not_eq_false fun hf => h (.inr hf)
        exact (openCommonInto_leaves env path password false caller).mono
          fun r hr => ⟨hr.released, .inr ⟨password, hsome, hr⟩⟩
  · rw [pvStoreOpenRecoveryConsume]
    split
    · next hnull => exact ⟨hnull ▸ rfl, .inl (by rw [Caller.release_null hnull])⟩
    · exact ⟨rfl, .inl rfl⟩
    · next recoveryKey secure hsome =>
      split
      · exact ⟨rfl, .inl rfl⟩
      · next h =>
        obtain rfl : secure = true := Bool.eq_true_of_not_eq_false fun hf => h (.inr hf)
        have hlen : recoveryKey.length = pvRecoveryKeyBytes := not_not.mp fun hne => h (.inl hne)
        exact (openCommonInto_leaves env path recoveryKey true caller).mono
          fun r hr => ⟨hr.released, .inr ⟨⟨recoveryKey, hlen⟩, hsome, hr⟩⟩

end Store

end PVault
