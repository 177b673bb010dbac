import PVault.Plan
import PVault.Sealed
import PVault.Prune

/-!
# Saving a vault (`src/store.c`)

`save_locked` replaces the active snapshot, while the caller holds the lock: it checks that
the active file is the one the handle is based on, encrypts the vault under the next
generation, copies the active file into `backups`, gives the new file its name, reads it back
and removes surplus backups.

* `automaticBackup_spec` — a copy of the active file under the name of its generation.
* `saveLocked_spec` — all of the save or none of it, in steps of its `Plan` only.
-/

namespace PVault

open Binary Conc

/-! ## The programs -/

/-- What a save gets from outside: the time, memory and random bytes. -/
structure SaveEnv where
  /-- `pv_now_ms` -/
  now : Int64
  /-- secret memory for the encoder -/
  encode : Bool
  body : BodyMemory
  draws : BodyDraws
  /-- what `sodium_mprotect_readonly` answered -/
  protect : Bool
  /-- the memory and environment for each backup that is validated -/
  prune : Bytes → OpenEnv

section Programs

variable {Hash : Type} [DecidableEq Hash] (so : Sodium Hash) (host : Host)

/-- The branches of `automatic_backup` for a copy that was not simply published. -/
def settleBackup (d : Nat) (name : Bytes) (vaultId : Block pvVaultIdBytes) (snapshot : DiskFile Hash) :
    PvStatus → FileM PvStatus
  | .errDurability => return .errIo
  | .errExists => do
    match ← readDiskFileAt so host d name with
    | .error status =>
      return if status = .errFormat ∨ status = .errUnsupported then .errExists else status
    | .ok existing =>
      if existing.header.vaultId ≠ vaultId ∨ existing.hash ≠ snapshot.hash then
        return .errExists
      else
        match ← sys (.fsyncDir d) with
        | .error _ => return .errIo
        | .ok _ => return .ok
  | status => return status

/-- `automatic_backup`: the status, and the directory of backups if it is left open. -/
def automaticBackup (location : Location) (vaultId : Block pvVaultIdBytes) (snapshot : DiskFile Hash)
    (generation : UInt64) : FileM (PvStatus × Option Nat) := do
  match ← makePrivateDirectoryAt location.dir backupsName with
  | .error status => return (status, none)
  | .ok d =>
    match formatAutomaticBackupName vaultId generation with
    | .error status => return (status, some d)
    | .ok name =>
      let status ←
        writeSnapshotExclusiveAt host d name snapshot.headerBytes snapshot.ciphertext 0o600
      let status ← settleBackup so host d name vaultId snapshot status
      if status ≠ .ok then
        let _ ← sys .close
        return (status, none)
      else
        return (.ok, some d)

/-- Encode and encrypt a vault: the status, the completed header and the ciphertext. -/
def sealVault (env : SaveEnv) (vault : Vault Hash) (header : FileHeader) :
    PvStatus × FileHeader × Bytes :=
  match pvCborEncode vault env.encode with
  | (.ok, encoded) => pvCryptoEncryptBody so header vault.vmk encoded env.draws env.body
  | (status, _) => (status, header, [])

/-- Close the directory of backups, if it is open. -/
def closeBackups : Option Nat → FileM Unit
  | none => return ()
  | some _ => do
    let _ ← sys .close
    return ()

/-- The exit of `save_locked` that takes the new generation back. -/
def abandonSave (backups : Option Nat) (status : PvStatus) (vault : Vault Hash)
    (previousUpdatedMs : Int64) (header : FileHeader) : FileM (PvStatus × Vault Hash × FileHeader) := do
  closeBackups backups
  return (status,
    { vault with generation := vault.generation - 1, updatedMs := previousUpdatedMs }, header)

/-- Read the active file back: its digest, if it is what was written. -/
def readBack (location : Location) (headerBytes : Block pvFileHeaderLen) (ciphertext : Bytes) :
    FileM (Option Hash) := do
  match ← readDiskFileAt so host location.dir location.name with
  | .error _ => return none
  | .ok written =>
    return if written.ciphertext.length = ciphertext.length ∧ written.headerBytes = headerBytes ∧
        written.ciphertext = ciphertext then some written.hash else none

/-- Prune the backups after a save that went well. -/
def pruneAfterSave (env : SaveEnv) (vault : Vault Hash) (previousGeneration : UInt64)
    (retention : Nat) (warning : Bool) : Option Nat → FileM Unit
  | none => return ()
  | some d =>
    if warning = true then
      return ()
    else do
      let _ ← pruneAutomaticBackups so host
        ⟨d, vault.vaultId, vault.vmk, previousGeneration.toNat, retention, env.prune⟩
      return ()

/-- The part of `save_locked` after the new file got its name. -/
def confirmSave (env : SaveEnv) (location : Location) (vault : Vault Hash) (header : FileHeader)
    (ciphertext : Bytes) (previousGeneration : UInt64) (retention : Nat) (backups : Option Nat)
    (warned : Bool) : FileM (PvStatus × Vault Hash × FileHeader) := do
  let read ← readBack so host location (pvHeaderEncode header (Block.zero _)) ciphertext
  let valid ← revalidateStoreLocation vault.path location
  match read with
  | none =>
    closeBackups backups
    return (.errDurability, vault, header)
  | some hash =>
    let warning := warned || decide (valid ≠ .ok)
    let vault := { vault with
      sourceHash := hash
      dirty := false
      arena := (pvArenaSetReadonly vault.arena env.protect).2 }
    pruneAfterSave so host env vault previousGeneration retention warning backups
    closeBackups backups
    return (if warning = true then .errDurability else .ok, vault, header)

/-- The copy of the snapshot that is replaced, if there is one. -/
def backupCurrent (location : Location) (vaultId : Block pvVaultIdBytes) (generation : UInt64) :
    Option (DiskFile Hash) → FileM (PvStatus × Option Nat)
  | none => return (.ok, none)
  | some current => automaticBackup so host location vaultId current generation

/-- The vault under its next generation. -/
def Vault.stamped {Hash : Type} (vault : Vault Hash) (now : Int64) : Vault Hash :=
  { vault with generation := vault.generation + 1, updatedMs := now }

/-- The part of `save_locked` after the active file was checked. -/
def commitSave (env : SaveEnv) (location : Location) (vault : Vault Hash) (header : FileHeader)
    (retention : Nat) (createOnly : Bool) (current : Option (DiskFile Hash)) :
    FileM (PvStatus × Vault Hash × FileHeader) :=
  let next := vault.stamped env.now
  match sealVault so env next header with
  | (.ok, header, ciphertext) => do
    let (status, backups) ← backupCurrent so host location next.vaultId vault.generation current
    if status ≠ .ok then
      abandonSave backups status next vault.updatedMs header
    else
      let valid ← revalidateStoreLocation vault.path location
      if valid ≠ .ok then
        abandonSave backups .errLocked next vault.updatedMs header
      else
        let status ←
          writeAtomicAt host location (pvHeaderEncode header (Block.zero _)) ciphertext createOnly
        if status.Committed then
          confirmSave so host env location next header ciphertext vault.generation retention backups
            (decide (status = .errDurability))
        else
          abandonSave backups status next vault.updatedMs header
  | (status, header, _) => abandonSave none status next vault.updatedMs header

/-- `save_locked`: the status, the vault and the header. -/
def saveLocked (env : SaveEnv) (location : Location) (vault : Vault Hash) (header : FileHeader)
    (retention : Nat) (createOnly : Bool) : FileM (PvStatus × Vault Hash × FileHeader) :=
  if vault.generation.toNat = 2 ^ 64 - 1 then
    return (.errLimit, vault, header)
  else do
    match ← pathEntryExistsAt location.dir location.name with
    | .error status => return (status, vault, header)
    | .ok found =>
      -- a vault to be made must not exist, one to be saved must
      if createOnly = found then
        return (if createOnly = true then .errExists else .errLocked, vault, header)
      else if found = true then
        match ← readDiskFileAt so host location.dir location.name with
        | .error status => return (status, vault, header)
        | .ok current =>
          if current.stat.mode ≠ 0o600 then
            return (.errIo, vault, header)
          else if current.hash ≠ vault.sourceHash ∨ current.header.vaultId ≠ vault.vaultId then
            return (.errLocked, vault, header)
          else
            commitSave so host env location vault header retention createOnly (some current)
      else
        commitSave so host env location vault header retention createOnly none

end Programs

/-! ## The copy of the active file -/

section Backup

variable {Hash : Type} {so : Sodium Hash} {host : Host} {faults : Bool} {G : Fs → Fs → Prop}
  {fs : Fs} {d : Nat} {name : Bytes} {vaultId : Block pvVaultIdBytes} {snapshot : DiskFile Hash}

/-- The name shows the very snapshot that is to be copied. -/
def Fs.ShowsSame (so : Sodium Hash) (fs : Fs) (d : Nat) (name : Bytes)
    (vaultId : Block pvVaultIdBytes) (snapshot : DiskFile Hash) : Prop :=
  ∃ existing, fs.Shows so d name existing ∧ existing.header.vaultId = vaultId ∧
    existing.hash = snapshot.hash

/-- Files with one digest have one content. -/
theorem Fs.ShowsSame.slot_eq (hinj : Function.Injective so.generichash)
    (hsnapshot : snapshot.hash = so.generichash snapshot.bytes)
    (h : fs.ShowsSame so d name vaultId snapshot) : fs.slot d name = .holds snapshot.bytes := by
  obtain ⟨existing, hshows, -, hhash⟩ := h
  rw [hshows.slot_eq]
  obtain ⟨i, n, -, -, -, hreads, -⟩ := hshows
  rw [hsnapshot, hreads.hash_eq, ← hreads.bytes_eq] at hhash
  rw [hinj hhash]

theorem settleBackup_spec [DecidableEq Hash] (hG : ∀ fs, G fs fs) {status : PvStatus} :
    (files faults Alone G).wp (settleBackup so host d name vaultId snapshot status)
      (fun s fs' => fs' = fs ∧ (s ≠ .ok → ¬s.Committed) ∧
        (s = .ok → status = .ok ∨ fs.ShowsSame so d name vaultId snapshot) ∧
        (status = .ok → s = .ok) ∧
        (faults = false → status = .errExists → (fs.ShowsSame so d name vaultId snapshot → s = .ok) ∧
          ((∃ existing, fs.Shows so d name existing) →
            ¬fs.ShowsSame so d name vaultId snapshot → s = .errExists))) fs := by
  cases status with
  | errDurability => exact ⟨rfl, fun _ => by decide, nofun, nofun, nofun⟩
  | errExists =>
    refine Sem.wp_then (readDiskFileAt_alone so host hG) ?_
    rintro r fs₁ ⟨rfl, hok, herr⟩
    cases r with
    | error status =>
      obtain ⟨hbad, hwhy⟩ := herr status rfl
      refine ⟨rfl, fun _ => ?_, fun h => ?_, nofun, fun hfalse _ => ?_⟩
      · split
        · decide
        · exact hbad
      · split at h
        · cases h
        · exact absurd h (PvStatus.ne_ok hbad)
      · have hnone := hwhy hfalse
        exact ⟨fun ⟨existing, hshows, _⟩ => absurd hshows (hnone existing),
          fun ⟨existing, hshows⟩ => absurd hshows (hnone existing)⟩
    | ok existing =>
      have hshows := hok existing rfl
      dsimp only
      split
      · next hdiffers =>
        refine ⟨rfl, fun _ => by decide, nofun, nofun, fun _ _ => ⟨?_, fun _ _ => rfl⟩⟩
        rintro ⟨other, hother, hid, hhash⟩
        rw [hother.unique hshows] at hid hhash
        exact absurd hdiffers (not_or_intro (not_not.mpr hid) (not_not.mpr hhash))
      · next hsame =>
        obtain ⟨hid, hhash⟩ := not_or.mp hsame
        have hsame : fs₁.ShowsSame so d name vaultId snapshot :=
          ⟨existing, hshows, not_not.mp hid, not_not.mp hhash⟩
        refine wp_query rfl hG (fun fs₂ e hrely he => ?_) fun fs₂ _ hrely _ => ?_
        · obtain rfl : fs₂ = fs₁ := hrely
          refine ⟨rfl, fun _ => by decide, nofun, nofun, fun hfalse => ?_⟩
          cases he hfalse
        · obtain rfl : fs₂ = fs₁ := hrely
          exact ⟨rfl, fun h => absurd rfl h, fun _ => .inr hsame, fun _ => rfl,
            fun _ _ => ⟨fun _ => rfl, fun _ hne => absurd hsame hne⟩⟩
  | ok => exact ⟨rfl, fun h => absurd rfl h, fun _ => .inl rfl, fun _ => rfl, nofun⟩
  | _ => exact ⟨rfl, fun _ => by decide, nofun, nofun, nofun⟩

/-- The place for the copy of a snapshot: there is or can be a directory of backups, and the name
in it is free, or shows the very snapshot. -/
def Fs.BackupFree (so : Sodium Hash) (plan : Plan) (vaultId : Block pvVaultIdBytes)
    (snapshot : DiskFile Hash) (fs : Fs) : Prop :=
  fs.CanHost plan.location.dir backupsName ∧
    ∀ d, fs.lookup plan.location.dir backupsName = some (.dir d) →
      fs.lookup d plan.backup = none ∨ fs.ShowsSame so d plan.backup vaultId snapshot

/-- What `automatic_backup` does when no call fails. -/
structure BackupClean (so : Sodium Hash) (plan : Plan) (vaultId : Block pvVaultIdBytes)
    (snapshot : DiskFile Hash) (fs : Fs) (status : PvStatus) : Prop where
  ok : fs.BackupFree so plan vaultId snapshot → status = .ok
  taken : ∀ d existing, fs.CanHost plan.location.dir backupsName →
    fs.lookup plan.location.dir backupsName = some (.dir d) → fs.Shows so d plan.backup existing →
    ¬fs.ShowsSame so d plan.backup vaultId snapshot → status = .errExists

/-- What `automatic_backup` may have done. -/
structure BackupResult (so : Sodium Hash) (host : Host) (faults : Bool) (plan : Plan)
    (vaultId : Block pvVaultIdBytes) (snapshot : DiskFile Hash) (generation : UInt64) (fs : Fs)
    (r : PvStatus × Option Nat) (fs' : Fs) : Prop where
  prepared : plan.Preparations fs fs'
  failed : r.1 ≠ .ok → ¬r.1.Committed
  ok : r.1 = .ok → fs.BackupFree so plan vaultId snapshot ∧
    ∃ d, r.2 = some d ∧ fs'.lookup plan.location.dir backupsName = some (.dir d) ∧
      fs'.slot d plan.backup = .holds snapshot.bytes
  noScratch : faults = false → fs.NoScratch plan.location → fs'.NoScratch plan.location
  free : faults = false → plan.Roomy host fs → host.Free fs' plan.location.dir plan.location.name
  clean : faults = false → plan.Roomy host fs → generation ≠ 0 →
    BackupClean so plan vaultId snapshot fs r.1

/-- What the parts of `automatic_backup` come to when no call fails. -/
theorem backupClean_of_parts {plan : Plan} {fs₁ fs₂ : Fs} {status s : PvStatus}
    (hmade : Fs.Made plan.location.dir backupsName fs fs₁)
    (hdir : fs₁.lookup plan.location.dir backupsName = some (.dir d))
    (hclean : PublishClean d plan.backup true fs₁ fs₂ status)
    (hquiet : status = .errExists → Fs.Quiet (Scratch plan.location) fs₁ fs₂)
    (htidy : fs₁.Tidy plan.location)
    (hkeep : status = .ok → s = .ok)
    (hsettle : status = .errExists →
      (fs₂.ShowsSame so d plan.backup vaultId snapshot → s = .ok) ∧
      ((∃ existing, fs₂.Shows so d plan.backup existing) →
        ¬fs₂.ShowsSame so d plan.backup vaultId snapshot → s = .errExists)) :
    BackupClean so plan vaultId snapshot fs s := by
  have hne : d ≠ plan.location.dir := Fs.backups_ne hdir
  have hname : ¬Scratch plan.location d plan.backup := not_scratch_snapshot plan.backup_snapshot
  -- A name that shows a snapshot is taken, and shows it to the end.
  have htaken : ∀ existing, fs.Shows so d plan.backup existing →
      status = .errExists ∧ fs₂.Shows so d plan.backup existing := by
    intro existing hshows
    rw [← hmade.shows_iff hne] at hshows
    have hstatus : status = .errExists := by
      refine hclean.exists_eq rfl ?_
      obtain ⟨i, n, hlook, -⟩ := hshows
      rw [hlook]
      exact nofun
    exact ⟨hstatus, ((hquiet hstatus).shows_iff hname (htidy _ _ hname)).mpr hshows⟩
  refine ⟨?_, ?_⟩
  · rintro ⟨-, hfree⟩
    rcases hmade.lookup_backup hdir plan.backup with ⟨hdir₀, hsame⟩ | hnew
    · rcases hfree d hdir₀ with hnone' | ⟨existing, hshows, hid, hhash⟩
      · exact hkeep (hclean.ok (.inl (hsame.trans hnone')))
      · obtain ⟨hstatus, hshows₂⟩ := htaken existing hshows
        exact (hsettle hstatus).1 ⟨existing, hshows₂, hid, hhash⟩
    · exact hkeep (hclean.ok (.inl hnew))
  · intro d₀ existing _ hdir₀ hshows hdiffers
    have hd : d₀ = d := by
      have heq := hmade.lookup_eq plan.location.dir backupsName (.inl (by rw [hdir₀]; exact nofun))
      rw [hdir, hdir₀] at heq
      cases heq
      rfl
    subst hd
    obtain ⟨hstatus, hshows₂⟩ := htaken existing hshows
    refine (hsettle hstatus).2 ⟨existing, hshows₂⟩ ?_
    rintro ⟨other, hother, hid, hhash⟩
    rw [hother.unique hshows₂] at hid hhash
    exact hdiffers ⟨existing, hshows, hid, hhash⟩

/-- **The automatic backup**: a copy of the active file in `backups`, under the name of its
generation, in steps of the plan. -/
theorem automaticBackup_spec [DecidableEq Hash] (plan : Plan) {generation : UInt64}
    (hinj : Function.Injective so.generichash)
    (hbackup : plan.backup = autoBackupName vaultId generation.toNat)
    (hshows : fs.Shows so plan.location.dir plan.location.name snapshot)
    (hold : plan.old = .holds snapshot.bytes) (hbase : plan.base snapshot.bytes)
    (htidy : fs.Tidy plan.location) (hG : ∀ a b, plan.Step a b → G a b) :
    (files faults Alone G).wp (automaticBackup so host plan.location vaultId snapshot generation)
      (BackupResult so host faults plan vaultId snapshot generation fs) fs := by
  have hrefl : ∀ fs, G fs fs := fun fs => hG fs fs (Plan.Step.refl fs)
  obtain ⟨i, n, hlook, hn, hpriv, hreads, hstat⟩ := hshows
  have hactive : fs.lookup plan.location.dir plan.location.name ≠ none := by
    rw [hlook]
    exact nofun
  -- The directory is made while the active name is bound.
  refine Sem.wp_then (makePrivateDirectoryAt_spec hrefl fun a b ha h => hG a b (.made ?_ h)) ?_
  · rw [ha.lookup_eq _ _ (.inl hactive)]
    exact hactive
  rintro r fs₁ ⟨hmade, hok, herr⟩
  have hstep₁ : plan.Prepares fs fs₁ := .made hactive hmade
  cases r with
  | error status =>
    obtain ⟨rfl, hwhy⟩ := herr status rfl
    exact ⟨.single hstep₁, fun _ => by decide, nofun, fun _ => hmade.noScratch,
      fun _ hroomy => (hmade.roomy hroomy).1, fun hfalse _ _ => ⟨fun hfree => absurd hfree.1 (hwhy hfalse),
        fun _ _ hhost => absurd hhost (hwhy hfalse)⟩⟩
  | ok d =>
  obtain ⟨hcan, hdir, hstat₁⟩ := hok d rfl
  have hne : d ≠ plan.location.dir := Fs.backups_ne hdir
  have htidy₁ := hstep₁.step.tidy htidy
  dsimp only
  rw [formatAutomaticBackupName_eq]
  split_ifs with hzero
  · exact ⟨.single hstep₁, fun _ => show ¬PvStatus.errUsage.Committed by decide, nofun,
      fun _ => hmade.noScratch, fun _ hroomy => (hmade.roomy hroomy).1,
      fun _ _ hpos => absurd hzero hpos⟩
  have hname : ¬Scratch plan.location d plan.backup := not_scratch_snapshot plan.backup_snapshot
  rw [← hbackup]
  dsimp only
  refine Sem.wp_then (wp_of_sure (writeSnapshotExclusiveAt_spec (E := Scratch plan.location) host
    (fun a b hq => hG a b (.quiet hq))
    (fun suffix _ => scratch_snapshot hne plan.backup_snapshot suffix) hname (htidy₁ _ _ hname)
    (fun a b j hq hpub hfree => hG a b (.backup hold hbase ?_ (hfree rfl) hpub))
    hreads.ciphertext_ne (.inr rfl))) ?_
  · rw [hq.lookup_eq _ _ not_scratch_backups]
    exact hdir
  intro status fs₂ hpublish
  refine Sem.wp_then (settleBackup_spec hrefl) ?_
  rintro s fs₃ ⟨rfl, hfailed, hok, hkeep, hsettle⟩
  have hstep₂ : plan.Prepares fs₁ fs₃ ∧
      (s = .ok → fs₃.slot d plan.backup = .holds snapshot.bytes ∧
        (fs.lookup d plan.backup = none ∨ fs.ShowsSame so d plan.backup vaultId snapshot)) ∧
      (status = .errExists → Fs.Quiet (Scratch plan.location) fs₁ fs₃) := by
    cases hpublish.outcome with
    | published h hfree hstatus =>
      refine ⟨.backup hold hbase hdir (hfree rfl) h, fun _ => ⟨h.slot_eq, .inl ?_⟩, fun hbad => ?_⟩
      · rw [← hmade.lookup_eq d plan.backup (.inr fun heq => hne (Prod.mk.inj heq).1)]
        exact hfree rfl
      · rw [hbad] at hstatus
        rcases hstatus with h | h <;> cases h
    | nothing h hstatus =>
      refine ⟨.quiet h, fun hgood => ?_, fun _ => h⟩
      rcases hok hgood with rfl | hsame
      · rcases hstatus with h | h | ⟨-, h⟩ <;> cases h
      · refine ⟨hsame.slot_eq hinj (hreads.hash_eq.trans (by rw [hreads.bytes_eq])), .inr ?_⟩
        obtain ⟨existing, hshows, hid⟩ := hsame
        rw [h.shows_iff hname (htidy₁ _ _ hname), hmade.shows_iff hne] at hshows
        exact ⟨existing, hshows, hid⟩
  obtain ⟨hstep₂, hcopied, hquiet⟩ := hstep₂
  have hsteps : plan.Preparations fs fs₃ := (Relation.ReflTransGen.single hstep₁).tail hstep₂
  have hpublished : faults = false → plan.Roomy host fs →
      PublishClean d plan.backup true fs₁ fs₃ status := by
    intro hfalse hroomy
    refine hpublish.clean hfalse ⟨Fs.dir_lt hstat₁, ?_, (hmade.roomy hroomy).2 d hdir⟩
    rw [hbackup, length_autoBackupName]
    decide
  have hnoScratch : faults = false → fs.NoScratch plan.location → fs₃.NoScratch plan.location :=
    fun hfalse hnone => (hpublished hfalse hnone.roomy).noScratch hname (hmade.noScratch hnone)
  have hfreed : faults = false → plan.Roomy host fs →
      host.Free fs₃ plan.location.dir plan.location.name :=
    fun hfalse hroomy => (hpublished hfalse hroomy).free hne.symm (hmade.roomy hroomy).1
  have hclean : faults = false → plan.Roomy host fs → generation ≠ 0 →
      BackupClean so plan vaultId snapshot fs s :=
    fun hfalse hroomy _ => backupClean_of_parts hmade hdir (hpublished hfalse hroomy) hquiet htidy₁
      hkeep (hsettle hfalse)
  split
  · next hbad =>
    refine wp_close hrefl fun fs₄ _ hrely _ => ?_
    obtain rfl : fs₄ = fs₃ := hrely
    exact ⟨hsteps, hfailed, fun h => absurd h hbad, hnoScratch, hfreed, hclean⟩
  · next hgood =>
    have hgood : s = .ok := not_not.mp hgood
    obtain ⟨hslot, hfree⟩ := hcopied hgood
    refine ⟨hsteps, fun h => absurd rfl h, fun _ => ⟨⟨hcan, fun d₀ hdir₀ => ?_⟩,
      d, rfl, hstep₂.step.evolves.dir_mono _ _ _ hdir, hslot⟩, hnoScratch, hfreed, ?_⟩
    · have heq := hstep₁.step.evolves.dir_mono _ _ _ hdir₀
      rw [hdir] at heq
      cases heq
      exact hfree
    · rw [hgood] at hclean
      exact hclean

end Backup

/-! ## The new active file -/

section Active

variable {faults : Bool} {G : Fs → Fs → Prop} {fs : Fs} {host : Host} {plan : Plan}
  {headerBytes : Block pvFileHeaderLen} {ciphertext : Bytes} {noReplace : Bool}

/-- What `write_atomic_at` may have done to the active file. -/
structure ActiveResult (host : Host) (faults : Bool) (plan : Plan) (noReplace : Bool) (fs : Fs)
    (status : PvStatus) (fs' : Fs) : Prop where
  step : plan.Step fs fs'
  committed : status.Committed → (noReplace = true →
      fs.lookup plan.location.dir plan.location.name = none) ∧
    ∃ i, fs'.lookup plan.location.dir plan.location.name = some (.file i) ∧
      fs'.inodes[i]? = some (publishedInode plan.content 0o600)
  refused : ¬status.Committed → plan.Prepares fs fs'
  clean : faults = false → host.Room fs plan.location.dir plan.location.name →
    (fs.NoScratch plan.location → fs'.NoScratch plan.location) ∧
      (noReplace = false ∨ fs.lookup plan.location.dir plan.location.name = none → status = .ok)

/-- **The commit** is one step of the plan. -/
theorem writeActive_spec (hcontent : plan.content = headerBytes.bytes ++ ciphertext)
    (hne : ciphertext ≠ []) (htidy : fs.Tidy plan.location)
    (hreplace : noReplace = false → ∃ data, plan.old = .holds data ∧ plan.base data ∧
      fs.active plan.location = .holds data ∧ plan.Copied fs data)
    (hcreate : fs.lookup plan.location.dir plan.location.name = none → plan.old = .absent)
    (hG : ∀ a b, plan.Step a b → G a b) :
    (files faults Alone G).wp (writeAtomicAt host plan.location headerBytes ciphertext noReplace)
      (ActiveResult host faults plan noReplace fs) fs := by
  have hkept := htidy plan.location.dir plan.location.name not_scratch_active
  -- Renaming after quiet work is a step of the plan.
  have hrename : ∀ a b i, Fs.Quiet (Scratch plan.location) fs a →
      Fs.Published (Scratch plan.location) plan.location.dir plan.location.name i
        (publishedInode plan.content 0o600) a b →
      (noReplace = true → a.lookup plan.location.dir plan.location.name = none) →
      plan.Step a b := by
    intro a b i hq hpub hfree
    cases hno : noReplace with
    | true =>
      have hnone := hfree hno
      refine .create (hcreate ?_) hnone hpub
      rwa [hq.lookup_eq _ _ not_scratch_active] at hnone
    | false =>
      obtain ⟨data, hold, hbase, hactive, hcopied⟩ := hreplace hno
      refine .replace hold hbase ?_ ((Plan.Step.quiet hq).copied htidy hcopied) hpub
      rw [Fs.active, hq.slot_eq not_scratch_active hkept]
      exact hactive
  refine Sem.wp_mono (wp_of_sure (writeAtomicAt_spec (E := Scratch plan.location) host
    (fun a b hq => hG a b (.quiet hq)) (fun suffix _ => scratch_active suffix) not_scratch_active
    hkept (fun a b i hq hpub hfree => hG a b (hrename a b i hq (hcontent ▸ hpub) hfree)) hne)) ?_
  rw [← hcontent]
  intro status fs' hresult
  have hclean : faults = false → host.Room fs plan.location.dir plan.location.name →
      (fs.NoScratch plan.location → fs'.NoScratch plan.location) ∧ (noReplace = false ∨
        fs.lookup plan.location.dir plan.location.name = none → status = .ok) := by
    intro hfalse hroom
    have hpub := hresult.clean hfalse hroom
    refine ⟨hpub.noScratch not_scratch_active, fun hwhen => hpub.ok ?_⟩
    rcases hwhen with hno | hfree
    · obtain ⟨data, -, -, hactive, -⟩ := hreplace hno
      exact .inr ⟨hno, Fs.lookup_of_holds hactive⟩
    · exact .inl hfree
  cases hresult.outcome with
  | published h hfree hstatus =>
    exact ⟨hrename _ _ _ (Fs.Quiet.refl _) h hfree, fun _ => ⟨hfree, _, h.lookup_eq, h.inode_eq⟩,
      fun hbad => absurd hstatus hbad, hclean⟩
  | nothing h hstatus =>
    refine ⟨.quiet h, fun hbad => ?_, fun _ => .quiet h, hclean⟩
    rcases hstatus with rfl | rfl | ⟨-, rfl⟩ <;> exact absurd hbad (by decide)

end Active

/-! ## Reading the new file back -/

section Confirm

variable {Hash : Type} {so : Sodium Hash} {faults : Bool} {G : Fs → Fs → Prop} {fs : Fs}
  {host : Host} {plan : Plan}
variable {location : Location} {data : Bytes}

/-- The name shows exactly these bytes, in a private file of mode `0600`. -/
def Fs.HoldsPrivate (fs : Fs) (location : Location) (data : Bytes) : Prop :=
  ∃ i, fs.lookup location.dir location.name = some (.file i) ∧
    fs.inodes[i]? = some (publishedInode data 0o600)

theorem Fs.HoldsPrivate.active (h : fs.HoldsPrivate location data) :
    fs.active location = .holds data := by
  obtain ⟨i, hlook, hn⟩ := h
  simp only [Fs.active, Fs.slot, hlook, hn]
  rfl

theorem Fs.HoldsPrivate.reads {disk : DiskFile Hash} (h : fs.HoldsPrivate location data)
    (hshows : fs.Shows so location.dir location.name disk) :
    disk.Reads so data ∧ disk.stat.mode = 0o600 := by
  obtain ⟨i, hlook, hn⟩ := h
  obtain ⟨j, n, hlook', hn', -, hreads, hstat⟩ := hshows
  rw [hlook] at hlook'
  cases hlook'
  rw [hn] at hn'
  cases hn'
  exact ⟨hreads, by rw [hstat]; rfl⟩

/-- A snapshot in a private file is shown. -/
theorem Fs.HoldsPrivate.shows {disk : DiskFile Hash} (h : fs.HoldsPrivate location data)
    (hreads : disk.Reads so data) :
    ∃ st, st.mode = 0o600 ∧
      fs.Shows so location.dir location.name { disk with stat := st } := by
  obtain ⟨i, hlook, hn⟩ := h
  refine ⟨(publishedInode data 0o600).stat i, rfl, i, _, hlook, hn, ⟨rfl, rfl, .inr rfl⟩, ?_, rfl⟩
  exact ⟨hreads.bytes_eq, hreads.decode_eq, hreads.length_eq, hreads.hash_eq⟩

theorem readBack_spec [DecidableEq Hash] {headerBytes : Block pvFileHeaderLen}
    {ciphertext : Bytes} (hG : ∀ fs, G fs fs) (hholds : fs.HoldsPrivate location data) :
    (files faults Alone G).wp (readBack so host location headerBytes ciphertext)
      (fun r fs' => fs' = fs ∧ (∀ hash, r = some hash → hash = so.generichash data) ∧
        (faults = false → ∀ disk : DiskFile Hash, disk.Reads so data →
          disk.headerBytes = headerBytes → disk.ciphertext = ciphertext → r ≠ none)) fs := by
  refine Sem.wp_then (readDiskFileAt_alone so host hG) ?_
  rintro r fs₁ ⟨rfl, hok, herr⟩
  cases r with
  | error status =>
    refine ⟨rfl, nofun, fun hfalse disk hreads _ _ => ?_⟩
    obtain ⟨st, -, hshows⟩ := hholds.shows hreads
    exact absurd hshows ((herr status rfl).2 hfalse _)
  | ok written =>
    obtain ⟨hreads, -⟩ := hholds.reads (hok written rfl)
    refine ⟨rfl, fun hash hsome => ?_, fun _ disk hdisk hheader hct => ?_⟩
    · split at hsome
      · cases hsome
        exact hreads.hash_eq
      · cases hsome
    · have hsame := hreads.parts_eq hdisk
      rw [if_pos ⟨by rw [hsame.2, hct], hsame.1.trans hheader, hsame.2.trans hct⟩]
      exact nofun

theorem closeBackups_spec (hG : ∀ fs, G fs fs) {backups : Option Nat} :
    (files faults Alone G).wp (closeBackups backups) (fun _ fs' => fs' = fs) fs := by
  cases backups with
  | none => exact rfl
  | some d => exact wp_close hG fun fs₁ _ hrely _ => hrely

/-- What follows the commit: pruning, and a handle based on the new file unless that could not
be read back. -/
structure ConfirmResult (so : Sodium Hash) (faults : Bool) (env : SaveEnv) (plan : Plan)
    (vault : Vault Hash) (header : FileHeader) (ciphertext : Bytes) (backups : Option Nat)
    (warned : Bool) (fs : Fs) (r : PvStatus × Vault Hash × FileHeader) (fs' : Fs) : Prop where
  effect : fs' = fs ∨ ∃ d, backups = some d ∧ Fs.Pruned d plan.prunes fs fs'
  status : r.1.Committed
  header_eq : r.2.2 = header
  vault_eq : r.2.1 = { vault with
      sourceHash := so.generichash plan.content
      dirty := false
      arena := (pvArenaSetReadonly vault.arena env.protect).2 } ∨
    r.1 = .errDurability ∧ r.2.1 = vault
  clean : faults = false → warned = false → fs.LeadsTo vault.path plan.location →
    header.V1 → ciphertext.length = header.bodyCiphertextLen.toNat → r.1 = .ok

variable {env : SaveEnv} {vault : Vault Hash} {header : FileHeader}
  {ciphertext : Bytes} {previous : UInt64} {retention : Nat} {backups : Option Nat} {warned : Bool}

/-- Pruning after a save takes steps of the plan only. -/
theorem pruneAfterSave_spec
    (hprunes : backups ≠ none → ∀ name generation,
      parseAutomaticBackupName name = some (vault.vaultId, generation) →
        generation < previous.toNat → plan.prunes name)
    (hdir : ∀ d, backups = some d → fs.lookup plan.location.dir backupsName = some (.dir d))
    (hG : ∀ a b, plan.Step a b → G a b) {warning : Bool} :
    (files faults Alone G).wp
      (pruneAfterSave so host env vault previous retention warning backups)
      (fun _ fs' => fs' = fs ∨ ∃ d, backups = some d ∧ Fs.Pruned d plan.prunes fs fs') fs := by
  cases backups with
  | none => exact .inl rfl
  | some d =>
    rw [pruneAfterSave]
    split
    · exact .inl rfl
    · have holder : ∀ name, PruneTask.Older
          ⟨d, vault.vaultId, vault.vmk, previous.toNat, retention, env.prune⟩ name →
          plan.prunes name :=
        fun name ⟨generation, hparse, hlt⟩ => hprunes nofun name generation hparse hlt
      have hwp : (files faults Alone (Fs.Pruned d plan.prunes)).wp _ _ fs :=
        pruneAutomaticBackups_spec so host fun a b h => h.mono holder
      -- While backups are removed, their directory stays where it is.
      refine Sem.wp_then (Sem.wp_invariant (S := files faults Alone (Fs.Pruned d plan.prunes))
        (G := G) (I := fun fs => fs.lookup plan.location.dir backupsName = some (.dir d))
        (fun a b ha hsame => by rwa [show b = a from hsame])
        (fun a b ha h => ⟨h.evolves.dir_mono _ _ _ ha, hG a b (.pruned ha h)⟩) hwp (hdir d rfl)) ?_
      rintro - fs' ⟨-, h⟩
      exact .inr ⟨d, rfl, h.mono holder⟩

theorem confirmSave_spec [DecidableEq Hash] (hholds : fs.HoldsPrivate plan.location plan.content)
    (hcontent : plan.content = serialized header ++ ciphertext)
    (hprunes : backups ≠ none → ∀ name generation,
      parseAutomaticBackupName name = some (vault.vaultId, generation) →
        generation < previous.toNat → plan.prunes name)
    (hdir : ∀ d, backups = some d → fs.lookup plan.location.dir backupsName = some (.dir d))
    (hG : ∀ a b, plan.Step a b → G a b) :
    (files faults Alone G).wp
      (confirmSave so host env plan.location vault header ciphertext previous retention backups warned)
      (ConfirmResult so faults env plan vault header ciphertext backups warned fs) fs := by
  have hrefl : ∀ fs, G fs fs := fun fs => hG fs fs (Plan.Step.refl fs)
  refine Sem.wp_then (readBack_spec hrefl hholds) ?_
  rintro read fs₁ ⟨rfl, hread, hclean⟩
  refine Sem.wp_then (revalidateStoreLocation_spec hrefl alone_refl alone_trans) ?_
  rintro valid fs₂ ⟨hrely, hvalid⟩
  obtain rfl : fs₂ = fs₁ := hrely
  have hfound : faults = false → header.V1 →
      ciphertext.length = header.bodyCiphertextLen.toNat → read ≠ none := by
    intro hfalse hv hlen
    refine hclean hfalse (sealedDisk so header ciphertext (Fs.newInode.stat 0)) ?_ rfl rfl
    rw [hcontent]
    exact sealedDisk_reads _ hv hlen
  cases read with
  | none =>
    refine Sem.wp_then (closeBackups_spec hrefl) ?_
    rintro - fs₃ rfl
    exact ⟨.inl rfl, .inr rfl, rfl, .inr ⟨rfl, rfl⟩,
      fun hfalse _ _ hv hlen => absurd rfl (hfound hfalse hv hlen)⟩
  | some hash =>
    rw [hread hash rfl]
    refine Sem.wp_then (pruneAfterSave_spec hprunes hdir hG) ?_
    rintro - fs₃ heffect
    refine Sem.wp_then (closeBackups_spec hrefl) ?_
    rintro - fs₄ rfl
    refine ⟨heffect, ?_, rfl, .inl rfl, fun hfalse hwarned hleads _ _ => ?_⟩
    · dsimp only
      split
      · exact .inr rfl
      · exact .inl rfl
    · have hok := hvalid hfalse (fun _ h => h) hleads
      simp [hok, hwarned]

end Confirm

/-! ## The whole save -/

section Whole

variable {Hash : Type} {so : Sodium Hash} {env : SaveEnv} {vault : Vault Hash} {header : FileHeader}

/-- The snapshot that comes out of sealing. -/
def sealedBytes (r : PvStatus × FileHeader × Bytes) : Bytes := serialized r.2.1 ++ r.2.2

/-- **What a save sets out to do**, when the name of the vault shows `old`. A save that makes a
new vault replaces nothing and prunes nothing. -/
def savePlan (so : Sodium Hash) (env : SaveEnv) (location : Location) (vault : Vault Hash)
    (header : FileHeader) (createOnly : Bool) (old : Slot) : Plan where
  location := location
  old := old
  base data := createOnly = false ∧ so.generichash data = vault.sourceHash
  backup := autoBackupName vault.vaultId vault.generation.toNat
  content := sealedBytes (sealVault so env (vault.stamped env.now) header)
  prunes name := createOnly = false ∧ ∃ generation,
    parseAutomaticBackupName name = some (vault.vaultId, generation) ∧
      generation < vault.generation.toNat
  backup_snapshot := autoBackupName_snapshot _ _
  backup_stays := by
    rintro ⟨-, generation, hparse, hlt⟩
    have hle : vault.generation.toNat ≤ sizeMax := Nat.le_pred_of_lt vault.generation.toNat_lt
    rw [parseAutomaticBackupName_format (Nat.zero_lt_of_lt hlt) hle] at hparse
    cases hparse
    exact Nat.lt_irrefl _ hlt
  prunes_snapshot := by
    rintro name ⟨-, generation, hparse, -⟩
    rw [format_of_parse hparse]
    exact autoBackupName_snapshot _ _

/-- Sealing touches the body fields of the header only. -/
theorem sealVault_frame (so : Sodium Hash) (env : SaveEnv) (vault : Vault Hash)
    (header : FileHeader) : ∃ nonce len, (sealVault so env vault header).2.1 =
      { header with bodyNonce := nonce, bodyCiphertextLen := len } := by
  rw [sealVault]
  split
  · exact pvCryptoEncryptBody_frame so header _ _ _ _
  · exact ⟨header.bodyNonce, header.bodyCiphertextLen, rfl⟩

theorem sealVault_refused (h : (sealVault so env vault header).1 ≠ .ok) :
    ¬(sealVault so env vault header).1.Committed := by
  refine not_or_intro h ?_
  rw [sealVault]
  split
  · exact pvCryptoEncryptBody_ne_durability _ _ _ _ _
  · next status encoded _ heq =>
    rw [show status = (pvCborEncode vault env.encode).1 by rw [heq]]
    exact pvCborEncode_ne_durability _ _

theorem sealVault_ok {header' : FileHeader} {ciphertext : Bytes}
    (h : sealVault so env vault header = (.ok, header', ciphertext)) :
    ∃ encoded, pvCborEncode vault env.encode = (.ok, encoded) ∧
      pvCryptoEncryptBody so header vault.vmk encoded env.draws env.body =
        (.ok, header', ciphertext) := by
  rw [sealVault] at h
  split at h
  · next encoded heq => exact ⟨encoded, heq, h⟩
  · next status encoded hne heq => exact absurd (Prod.mk.inj h).1 (fun hok => hne (hok ▸ rfl))

theorem sealVault_ciphertext_ne {header' : FileHeader} {ciphertext : Bytes}
    (h : sealVault so env vault header = (.ok, header', ciphertext)) : ciphertext ≠ [] := by
  obtain ⟨encoded, -, henc⟩ := sealVault_ok h
  obtain ⟨hlen, k, -, -, hpages⟩ := pvCryptoEncryptBody_bodyLen henc
  rintro rfl
  rw [hpages, List.length_nil] at hlen
  omega

/-- A vault that can be saved as far as its contents and its header go. -/
structure Vault.Sealable (so : Sodium Hash) (env : SaveEnv) (vault : Vault Hash)
    (header : FileHeader) : Prop where
  bounded : vault.generation.toNat ≠ 2 ^ 64 - 1
  sealed_ok : (sealVault so env (vault.stamped env.now) header).1 = .ok
  usable : header.Usable

/-- The active file is the snapshot the handle is based on. -/
structure Fs.Current (so : Sodium Hash) (fs : Fs) (location : Location) (vault : Vault Hash)
    (current : DiskFile Hash) : Prop where
  shows : fs.Shows so location.dir location.name current
  mode_eq : current.stat.mode = 0o600
  hash_eq : current.hash = vault.sourceHash
  vaultId_eq : current.header.vaultId = vault.vaultId

/-- **A save that committed.** -/
structure SaveDone (so : Sodium Hash) (env : SaveEnv) (plan : Plan) (vault : Vault Hash)
    (header : FileHeader) (createOnly : Bool) (fs : Fs) (r : PvStatus × Vault Hash × FileHeader)
    (fs' : Fs) : Prop where
  sealed_eq : ∃ ciphertext,
    sealVault so env (vault.stamped env.now) header = (.ok, r.2.2, ciphertext)
  /-- what was replaced is in `backups` -/
  replaced : createOnly = false → ∃ data, fs.active plan.location = .holds data ∧ plan.base data ∧
    plan.Copied fs' data
  created : createOnly = true → fs.lookup plan.location.dir plan.location.name = none
  active : fs'.active plan.location = .holds plan.content
  vault_eq : r.2.1 = { vault.stamped env.now with
      sourceHash := so.generichash plan.content
      dirty := false
      arena := (pvArenaSetReadonly vault.arena env.protect).2 } ∨
    r.1 = .errDurability ∧ r.2.1 = vault.stamped env.now

/-- **A save when no call fails.** -/
structure SaveClean (so : Sodium Hash) (env : SaveEnv) (plan : Plan) (vault : Vault Hash)
    (header : FileHeader) (createOnly : Bool) (fs : Fs) (status : PvStatus) (fs' : Fs) : Prop where
  noScratch : fs.NoScratch plan.location → fs'.NoScratch plan.location
  saved : createOnly = false → vault.Sealable so env header → vault.generation ≠ 0 →
    ∀ current, fs.Current so plan.location vault current →
      (status = .ok ↔ fs.BackupFree so plan vault.vaultId current) ∧
      ∀ d existing, fs.CanHost plan.location.dir backupsName →
        fs.lookup plan.location.dir backupsName = some (.dir d) →
        fs.Shows so d plan.backup existing →
        ¬fs.ShowsSame so d plan.backup vault.vaultId current → status = .errExists
  stale : createOnly = false → vault.generation.toNat ≠ 2 ^ 64 - 1 →
    ∀ current, fs.Shows so plan.location.dir plan.location.name current →
      current.stat.mode = 0o600 → current.hash ≠ vault.sourceHash → status = .errLocked
  missing : createOnly = false → vault.generation.toNat ≠ 2 ^ 64 - 1 →
    fs.lookup plan.location.dir plan.location.name = none → status = .errLocked
  fresh : createOnly = true → vault.Sealable so env header →
    fs.lookup plan.location.dir plan.location.name = none → status = .ok

/-- **What `save_locked` may have done.** -/
structure SaveResult (so : Sodium Hash) (host : Host) (faults : Bool) (env : SaveEnv) (plan : Plan)
    (vault : Vault Hash) (header : FileHeader) (createOnly : Bool) (fs : Fs)
    (r : PvStatus × Vault Hash × FileHeader) (fs' : Fs) : Prop where
  steps : plan.Steps fs fs'
  header_eq : ∃ nonce len, r.2.2 = { header with bodyNonce := nonce, bodyCiphertextLen := len }
  refused : ¬r.1.Committed → r.2.1 = vault ∧ plan.Preparations fs fs'
  committed : r.1.Committed → SaveDone so env plan vault header createOnly fs r fs'
  bounded : r.1.Committed → vault.generation.toNat ≠ 2 ^ 64 - 1
  clean : faults = false → plan.Roomy host fs → fs.LeadsTo vault.path plan.location →
    plan.location.name.length + 13 < pathMax →
    SaveClean so env plan vault header createOnly fs r.1 fs'

section Commit

variable {faults : Bool} {G : Fs → Fs → Prop} {fs : Fs} {host : Host} {location : Location}
  {retention : Nat} {createOnly : Bool} {plan : Plan}

theorem abandonSave_spec (hG : ∀ fs, G fs fs) {backups : Option Nat} {status : PvStatus} {now : Int64} :
    (files faults Alone G).wp
      (abandonSave backups status (vault.stamped now) vault.updatedMs header)
      (fun r fs' => fs' = fs ∧ r = (status, vault, header)) fs := by
  refine Sem.wp_then (closeBackups_spec hG) ?_
  rintro - fs₁ rfl
  refine ⟨rfl, ?_⟩
  rw [Vault.stamped]
  dsimp only
  rw [UInt64.add_sub_cancel]

/-- The copy of what is to be replaced, or nothing if nothing is. -/
structure CopyTaken (so : Sodium Hash) (host : Host) (faults : Bool) (plan : Plan) (vault : Vault Hash)
    (current : Option (DiskFile Hash)) (fs : Fs) (r : PvStatus × Option Nat) (fs' : Fs) : Prop where
  prepared : plan.Preparations fs fs'
  failed : r.1 ≠ .ok → ¬r.1.Committed
  dir_eq : r.1 = .ok → ∀ d, r.2 = some d → fs'.lookup plan.location.dir backupsName = some (.dir d)
  copied : r.1 = .ok → ∀ disk, current = some disk →
    fs.BackupFree so plan vault.vaultId disk ∧ plan.Copied fs' disk.bytes
  none_ok : current = none → r = (.ok, none)
  noScratch : faults = false → fs.NoScratch plan.location → fs'.NoScratch plan.location
  free : faults = false → plan.Roomy host fs → host.Free fs' plan.location.dir plan.location.name
  clean : faults = false → plan.Roomy host fs → vault.generation ≠ 0 →
    ∀ disk, current = some disk → BackupClean so plan vault.vaultId disk fs r.1

theorem backupCurrent_spec [DecidableEq Hash] {current : Option (DiskFile Hash)}
    (hinj : Function.Injective so.generichash)
    (hcurrent : ∀ disk, current = some disk → createOnly = false ∧ fs.Current so location vault disk)
    (htidy : fs.Tidy location)
    (hG : ∀ a b, (savePlan so env location vault header createOnly (fs.active location)).Step a b →
      G a b) :
    (files faults Alone G).wp
      (backupCurrent so host location vault.vaultId vault.generation current)
      (CopyTaken so host faults (savePlan so env location vault header createOnly (fs.active location)) vault
        current fs) fs := by
  cases current with
  | none =>
    exact ⟨.refl, fun h => absurd rfl h, fun _ _ => nofun, fun _ _ => nofun, fun _ => rfl,
      fun _ => id, fun _ => And.left, fun _ _ _ _ => nofun⟩
  | some disk =>
    obtain ⟨hreplace, hshows⟩ := hcurrent disk rfl
    have hactive : fs.active location = .holds disk.bytes := hshows.shows.slot_eq
    have hbase : so.generichash disk.bytes = vault.sourceHash := by
      obtain ⟨i, n, -, -, -, hreads, -⟩ := hshows.shows
      rw [hreads.bytes_eq, ← hreads.hash_eq, hshows.hash_eq]
    refine Sem.wp_mono (automaticBackup_spec
      (savePlan so env location vault header createOnly (fs.active location)) hinj rfl hshows.shows
      hactive ⟨hreplace, hbase⟩ htidy hG) ?_
    intro r fs' h
    refine ⟨h.prepared, h.failed, fun hok d hd => ?_, fun hok disk' hsome => ?_, nofun,
      h.noScratch, h.free, fun hfalse hroomy hpos disk' hsome => ?_⟩
    · obtain ⟨-, d', hd', hdir, -⟩ := h.ok hok
      rw [hd] at hd'
      cases hd'
      exact hdir
    · cases hsome
      obtain ⟨hfree, d, -, hdir, hslot⟩ := h.ok hok
      exact ⟨hfree, d, hdir, hslot⟩
    · cases hsome
      exact h.clean hfalse hroomy hpos

/-- What is to be replaced: the snapshot the handle is based on, or nothing at all. -/
def Replaces (so : Sodium Hash) (fs : Fs) (location : Location) (vault : Vault Hash)
    (createOnly : Bool) : Option (DiskFile Hash) → Prop
  | none => createOnly = true
  | some disk => createOnly = false ∧ fs.Current so location vault disk

section Outcome

variable {current : Option (DiskFile Hash)} {fs' : Fs} {status : PvStatus}

/-- The outcome when no call fails, for an active file that was found to be current. -/
theorem SaveClean.of_backup (hcurrent : Replaces so fs plan.location vault createOnly current)
    (hnone : fs.NoScratch plan.location → fs'.NoScratch plan.location)
    (hsaved : vault.Sealable so env header → vault.generation ≠ 0 →
      ∀ disk, current = some disk → BackupClean so plan vault.vaultId disk fs status)
    (hok : status = .ok → ∀ disk, current = some disk → fs.BackupFree so plan vault.vaultId disk)
    (hfresh : current = none → vault.Sealable so env header →
      fs.lookup plan.location.dir plan.location.name = none → status = .ok) :
    SaveClean so env plan vault header createOnly fs status fs' := by
  cases current with
  | none =>
    obtain rfl : createOnly = true := hcurrent
    exact ⟨hnone, nofun, nofun, nofun, fun _ => hfresh rfl⟩
  | some disk =>
    obtain ⟨rfl, hdisk⟩ := hcurrent
    refine ⟨hnone, fun _ hseal hpos current hcur => ?_, fun _ _ current hshows _ hne => ?_,
      fun _ _ hnone => ?_, nofun⟩
    · rw [hcur.shows.unique hdisk.shows]
      have hclean := hsaved hseal hpos disk rfl
      exact ⟨⟨fun h => hok h disk rfl, hclean.ok⟩, hclean.taken⟩
    · rw [hshows.unique hdisk.shows] at hne
      exact absurd hdisk.hash_eq hne
    · obtain ⟨i, n, hlook, -⟩ := hdisk.shows
      rw [hlook] at hnone
      cases hnone

/-- Once the copy was made, nothing but a failing call stands against the save. -/
theorem SaveClean.of_copied (hcurrent : Replaces so fs plan.location vault createOnly current)
    (hnone : fs.NoScratch plan.location → fs'.NoScratch plan.location)
    (hfree : ∀ disk, current = some disk → fs.BackupFree so plan vault.vaultId disk)
    (hok : vault.Sealable so env header →
      (current = none → fs.lookup plan.location.dir plan.location.name = none) → status = .ok) :
    SaveClean so env plan vault header createOnly fs status fs' := by
  refine SaveClean.of_backup hcurrent hnone (fun hseal _ disk hsome => ⟨fun _ => hok hseal ?_, ?_⟩)
    (fun _ => hfree) fun _ hseal hlook => hok hseal fun _ => hlook
  · rw [hsome]
    exact nofun
  · intro d existing _ hdir hshows hdiffers
    rcases (hfree disk hsome).2 d hdir with hunbound | hsame
    · obtain ⟨i, n, hlook, -⟩ := hshows
      rw [hunbound] at hlook
      cases hlook
    · exact absurd hsame hdiffers

end Outcome

/-- The commit and what follows it, after the copy was made. -/
theorem finishSave_spec [DecidableEq Hash] (plan : Plan) {current : Option (DiskFile Hash)} {fs₁ : Fs}
    {header' : FileHeader} {ciphertext : Bytes} {backups : Option Nat}
    (hcurrent : Replaces so fs plan.location vault createOnly current) (htidy : fs.Tidy plan.location)
    (hold : plan.old = fs.active plan.location)
    (hbase : createOnly = false → ∀ data, so.generichash data = vault.sourceHash → plan.base data)
    (hprunes : createOnly = false → ∀ name generation,
      parseAutomaticBackupName name = some (vault.vaultId, generation) →
        generation < vault.generation.toNat → plan.prunes name)
    (hsealed : sealVault so env (vault.stamped env.now) header = (.ok, header', ciphertext))
    (hcontent : plan.content = serialized header' ++ ciphertext)
    (hcopy : CopyTaken so host faults plan vault current fs (.ok, backups) fs₁)
    (hmax : vault.generation.toNat ≠ 2 ^ 64 - 1)
    (hG : ∀ a b, plan.Step a b → G a b) :
    (files faults Alone G).wp
      (do
        let valid ← revalidateStoreLocation vault.path plan.location
        if valid ≠ .ok then
          abandonSave backups .errLocked (vault.stamped env.now) vault.updatedMs header'
        else
          let status ← writeAtomicAt host plan.location (pvHeaderEncode header' (Block.zero _))
            ciphertext createOnly
          if status.Committed then
            confirmSave so host env plan.location (vault.stamped env.now) header' ciphertext
              vault.generation retention backups (decide (status = .errDurability))
          else
            abandonSave backups status (vault.stamped env.now) vault.updatedMs header')
      (SaveResult so host faults env plan vault header createOnly fs) fs₁ := by
  have hrefl : ∀ fs, G fs fs := fun fs => hG fs fs (Plan.Step.refl fs)
  have hheader : ∃ nonce len, header' =
      { header with bodyNonce := nonce, bodyCiphertextLen := len } := by
    have h := sealVault_frame so env (vault.stamped env.now) header
    rwa [hsealed] at h
  have hfree := fun disk hsome => (hcopy.copied rfl disk hsome).1
  have htidy₁ := hcopy.prepared.steps.tidy htidy
  -- Leaving without a commit restores the handle.
  have hrefuse : ∀ {fs₂ : Fs} {status : PvStatus}, plan.Preparations fs fs₂ → ¬status.Committed →
      (faults = false → plan.Roomy host fs → fs.LeadsTo vault.path plan.location →
        plan.location.name.length + 13 < pathMax →
        (fs.NoScratch plan.location → fs₂.NoScratch plan.location) ∧
          ((current = none → fs.lookup plan.location.dir plan.location.name = none) →
            status = .ok)) →
      (files faults Alone G).wp
        (abandonSave backups status (vault.stamped env.now) vault.updatedMs header')
        (SaveResult so host faults env plan vault header createOnly fs) fs₂ := by
    intro fs₂ status hprepared hbad hclean
    refine Sem.wp_mono (abandonSave_spec hrefl) ?_
    rintro r fs₃ ⟨rfl, rfl⟩
    exact ⟨hprepared.steps, hheader, fun _ => ⟨rfl, hprepared⟩, fun h => absurd h hbad, fun _ => hmax,
      fun hfalse hroomy hleads hshort =>
        have h := hclean hfalse hroomy hleads hshort
        SaveClean.of_copied hcurrent h.1 hfree fun _ => h.2⟩
  refine Sem.wp_then (revalidateStoreLocation_spec hrefl alone_refl alone_trans) ?_
  rintro valid fs₂ ⟨hrely, hvalid⟩
  obtain rfl : fs₂ = fs₁ := hrely
  split
  · next hbad =>
    exact hrefuse hcopy.prepared (by decide) fun hfalse _ hleads _ =>
      ⟨hcopy.noScratch hfalse,
        fun _ => absurd (hvalid hfalse (fun _ h => h) (hcopy.prepared.steps.leadsTo hleads)) hbad⟩
  have hreplace : createOnly = false → ∃ data, plan.old = .holds data ∧ plan.base data ∧
      fs₂.active plan.location = .holds data ∧ plan.Copied fs₂ data := by
    intro hno
    cases current with
    | none => exact absurd (hno.symm.trans hcurrent) nofun
    | some disk =>
      have hactive : fs.active plan.location = .holds disk.bytes := hcurrent.2.shows.slot_eq
      have hsame := (hcopy.prepared.steps.evolves.slot_eq (htidy _ _ not_scratch_active) hcopy.prepared.lookup_eq).2
      refine ⟨disk.bytes, hold.trans hactive, hbase hno _ ?_, hsame.trans hactive,
        (hcopy.copied rfl disk rfl).2⟩
      obtain ⟨i, n, -, -, -, hreads, -⟩ := hcurrent.2.shows
      rw [hreads.bytes_eq, ← hreads.hash_eq, hcurrent.2.hash_eq]
  refine Sem.wp_then (writeActive_spec hcontent (sealVault_ciphertext_ne hsealed) htidy₁ hreplace
    (fun hunbound => ?_) hG) ?_
  · rw [hold, Fs.active, Fs.slot, ← hcopy.prepared.lookup_eq, hunbound]
  intro status fs₃ hactive
  have hsteps₃ : plan.Steps fs fs₃ := hcopy.prepared.steps.tail hactive.step
  have hclean : faults = false → plan.Roomy host fs → fs.LeadsTo vault.path plan.location →
      plan.location.name.length + 13 < pathMax →
      (fs.NoScratch plan.location → fs₃.NoScratch plan.location) ∧
        ((current = none → fs.lookup plan.location.dir plan.location.name = none) → status = .ok) := by
    intro hfalse hroomy hleads hshort
    obtain ⟨-, dir, -, -, hdir, -⟩ := hcopy.prepared.steps.leadsTo hleads
    obtain ⟨hnone₃, hok⟩ := hactive.clean hfalse
      ⟨(List.getElem?_eq_some_iff.mp hdir).1, hshort, hcopy.free hfalse hroomy⟩
    refine ⟨fun hnone => hnone₃ (hcopy.noScratch hfalse hnone), fun hunbound => hok ?_⟩
    cases current with
    | none => exact .inr (hcopy.prepared.lookup_eq.trans (hunbound rfl))
    | some disk => exact .inl hcurrent.1
  split
  · next hcommitted =>
    obtain ⟨hunbound, hholds⟩ := hactive.committed hcommitted
    have hdir : ∀ d, backups = some d → fs₃.lookup plan.location.dir backupsName = some (.dir d) :=
      fun d hd => hactive.step.evolves.dir_mono _ _ _ (hcopy.dir_eq rfl d hd)
    have hpruning : backups ≠ none → createOnly = false := by
      intro hsome
      cases current with
      | none => exact absurd (Prod.mk.inj (hcopy.none_ok rfl)).2 hsome
      | some disk => exact hcurrent.1
    refine Sem.wp_mono
      (confirmSave_spec hholds hcontent (fun hsome => hprunes (hpruning hsome)) hdir hG) ?_
    intro r fs₄ hconfirm
    have hpruned : plan.Steps fs₃ fs₄ := by
      rcases hconfirm.effect with rfl | ⟨d, hd, h⟩
      · exact .refl
      · exact .single (.pruned (hdir d hd) h)
    refine ⟨hsteps₃.trans hpruned, hconfirm.header_eq ▸ hheader, fun hbad => absurd hconfirm.status hbad,
      fun _ => ⟨⟨ciphertext, hconfirm.header_eq ▸ hsealed⟩, fun hno => ?_, fun hyes => ?_, ?_,
        hconfirm.vault_eq⟩, fun _ => hmax, fun hfalse hroomy hleads hshort => ?_⟩
    · obtain ⟨data, hdata, hbase, -, hcopied⟩ := hreplace hno
      exact ⟨data, hold.symm.trans hdata, hbase, hpruned.copied (hactive.step.tidy htidy₁)
        (hactive.step.copied htidy₁ hcopied)⟩
    · rw [← hcopy.prepared.lookup_eq]
      exact hunbound hyes
    · exact hpruned.active_new (hactive.step.tidy htidy₁) (Fs.HoldsPrivate.active hholds)
    · obtain ⟨hnone₃, hok⟩ := hclean hfalse hroomy hleads hshort
      refine SaveClean.of_copied hcurrent (fun hnone => ?_) hfree fun hseal hfresh => ?_
      · rcases hconfirm.effect with rfl | ⟨d, -, h⟩
        · exact hnone₃ hnone
        · exact h.noScratch (hnone₃ hnone)
      · obtain ⟨encoded, -, henc⟩ := sealVault_ok hsealed
        obtain ⟨hv, hlen, -⟩ := pvCryptoEncryptBody_v1 hseal.usable henc
        refine hconfirm.clean hfalse ?_ (hsteps₃.leadsTo hleads) hv hlen
        rw [hok hfresh]
        rfl
  · next hbad =>
    exact hrefuse (hcopy.prepared.tail (hactive.refused hbad)) hbad hclean

/-- The part of `save_locked` after the active file was checked. -/
theorem commitSave_spec [DecidableEq Hash] (current : Option (DiskFile Hash))
    (hinj : Function.Injective so.generichash)
    (hcurrent : Replaces so fs location vault createOnly current) (htidy : fs.Tidy location)
    (hmax : vault.generation.toNat ≠ 2 ^ 64 - 1) (hrefl : ∀ fs, G fs fs)
    (hG : (sealVault so env (vault.stamped env.now) header).1 = .ok → ∀ a b,
      (savePlan so env location vault header createOnly (fs.active location)).Step a b → G a b) :
    (files faults Alone G).wp
      (commitSave so host env location vault header retention createOnly current)
      (SaveResult so host faults env
        (savePlan so env location vault header createOnly (fs.active location)) vault header createOnly
        fs) fs := by
  have hframe := sealVault_frame so env (vault.stamped env.now) header
  rw [commitSave]
  dsimp only
  split
  · next header' ciphertext hsealed =>
    have hG := hG (by rw [hsealed])
    have hdisk : ∀ disk, current = some disk →
        createOnly = false ∧ fs.Current so location vault disk := by
      rintro disk rfl
      exact hcurrent
    refine Sem.wp_then (backupCurrent_spec hinj hdisk htidy hG) ?_
    rintro ⟨status, backups⟩ fs₁ hcopy
    dsimp only
    split
    · next hbad =>
      refine Sem.wp_mono (abandonSave_spec hrefl) ?_
      rintro r fs₂ ⟨rfl, rfl⟩
      rw [hsealed] at hframe
      refine ⟨hcopy.prepared.steps, hframe, fun _ => ⟨rfl, hcopy.prepared⟩,
        fun h => absurd h (hcopy.failed hbad), fun _ => hmax, fun hfalse hroomy _ _ => ?_⟩
      exact SaveClean.of_backup hcurrent (hcopy.noScratch hfalse)
        (fun _ hpos => hcopy.clean hfalse hroomy hpos) (fun h => absurd h hbad)
        fun hnew => absurd (congrArg Prod.fst (hcopy.none_ok hnew)) hbad
    · next hgood =>
      obtain rfl : status = .ok := not_not.mp hgood
      refine finishSave_spec (savePlan so env location vault header createOnly (fs.active location))
        hcurrent htidy rfl (fun hno _ h => ⟨hno, h⟩)
        (fun hno _ generation hparse hlt => ⟨hno, generation, hparse, hlt⟩) hsealed ?_ hcopy hmax hG
      show sealedBytes _ = _
      rw [hsealed]
      rfl
  · next status header' ciphertext hne hsealed =>
    have hbad : (sealVault so env (vault.stamped env.now) header).1 ≠ .ok := by
      rw [hsealed]
      rintro rfl
      exact hne rfl
    have hnever := sealVault_refused hbad
    refine Sem.wp_mono (abandonSave_spec hrefl) ?_
    rintro r fs₁ ⟨rfl, rfl⟩
    rw [hsealed] at hframe hnever
    exact ⟨.refl, hframe, fun _ => ⟨rfl, .refl⟩, fun h => absurd h hnever, fun _ => hmax, fun _ _ _ _ =>
      SaveClean.of_backup hcurrent id (fun hseal => absurd hseal.sealed_ok hbad)
        (fun h => absurd (.inl h) hnever) fun _ hseal => absurd hseal.sealed_ok hbad⟩

/-- **Saving under the lock**, whatever the calls answer: all of the save or none of it, and every
step is one of its plan; if the vault cannot be sealed there are none. -/
theorem saveLocked_spec [DecidableEq Hash] (hinj : Function.Injective so.generichash)
    (htidy : fs.Tidy location) (hrefl : ∀ fs, G fs fs)
    (hG : (sealVault so env (vault.stamped env.now) header).1 = .ok → ∀ a b,
      (savePlan so env location vault header createOnly (fs.active location)).Step a b → G a b) :
    (files faults Alone G).wp
      (saveLocked so host env location vault header retention createOnly)
      (SaveResult so host faults env
        (savePlan so env location vault header createOnly (fs.active location)) vault header createOnly
        fs) fs := by
  -- The exits before anything is changed.
  have hexit : ∀ status : PvStatus, ¬status.Committed →
      (faults = false → SaveClean so env
        (savePlan so env location vault header createOnly (fs.active location)) vault header createOnly
        fs status fs) →
      SaveResult so host faults env
        (savePlan so env location vault header createOnly (fs.active location)) vault header createOnly
        fs (status, vault, header) fs :=
    fun status hbad hclean => ⟨.refl, ⟨header.bodyNonce, header.bodyCiphertextLen, rfl⟩,
      fun _ => ⟨rfl, .refl⟩, fun h => absurd h hbad, fun h => absurd h hbad,
      fun hfalse _ _ _ => hclean hfalse⟩
  rw [saveLocked]
  split
  · next hmax =>
    exact hexit _ (by decide) fun _ => ⟨id, fun _ h => absurd hmax h.bounded,
      fun _ h => absurd hmax h, fun _ h => absurd hmax h, fun _ h => absurd hmax h.bounded⟩
  next hmax =>
  refine Sem.wp_then (pathEntryExistsAt_spec hrefl) ?_
  rintro r fs₁ ⟨rfl, herr, habsent, hpresent⟩
  have hshown : faults = false → ∀ disk, fs₁.Shows so location.dir location.name disk → r = .ok true :=
    fun hfalse disk ⟨i, n, hlook, hn, _⟩ => hpresent hfalse i n hlook hn
  cases r with
  | error status =>
    obtain rfl := herr status rfl
    exact hexit _ (by decide) fun hfalse => ⟨id,
      fun _ _ _ current h => absurd (hshown hfalse current h.shows) nofun,
      fun _ _ current h => absurd (hshown hfalse current h) nofun,
      fun _ _ h => absurd (habsent hfalse h) nofun, fun _ _ h => absurd (habsent hfalse h) nofun⟩
  | ok found =>
  dsimp only
  split
  · next hsame =>
    subst hsame
    cases createOnly with
    | true =>
      exact hexit .errExists (by decide) fun hfalse => ⟨id, nofun, nofun, nofun,
        fun _ _ h => absurd (habsent hfalse h) nofun⟩
    | false =>
      exact hexit .errLocked (by decide) fun hfalse => ⟨id,
        fun _ _ _ current h => absurd (hshown hfalse current h.shows) nofun, fun _ _ _ _ _ _ => rfl,
        fun _ _ _ => rfl, nofun⟩
  next hdiffers =>
  split
  · next hfound =>
    subst hfound
    obtain rfl : createOnly = false := by simpa using hdiffers
    refine Sem.wp_then (readDiskFileAt_alone so host hrefl) ?_
    rintro r fs₂ ⟨rfl, hok, hbad⟩
    have hbound : faults = false → fs₂.lookup location.dir location.name ≠ none :=
      fun hfalse h => absurd (habsent hfalse h) nofun
    cases r with
    | error status =>
      obtain ⟨hrefused, hwhy⟩ := hbad status rfl
      exact hexit _ hrefused fun hfalse => ⟨id,
        fun _ _ _ current h => absurd h.shows (hwhy hfalse current),
        fun _ _ current h => absurd h (hwhy hfalse current), fun _ _ h => absurd h (hbound hfalse), nofun⟩
    | ok disk =>
    have hshows := hok disk rfl
    dsimp only
    split
    · next hmode =>
      exact hexit _ (by decide) fun hfalse => ⟨id,
        fun _ _ _ current h => absurd (h.shows.unique hshows ▸ h.mode_eq) hmode,
        fun _ _ current h h600 => absurd (h.unique hshows ▸ h600) hmode,
        fun _ _ h => absurd h (hbound hfalse), nofun⟩
    next hmode =>
    split
    · next hforeign =>
      refine hexit _ (by decide) fun hfalse => ⟨id, fun _ _ _ current h => ?_,
        fun _ _ _ _ _ _ => rfl, fun _ _ _ => rfl, nofun⟩
      obtain rfl := h.shows.unique hshows
      exact absurd hforeign (not_or_intro (not_not.mpr h.hash_eq) (not_not.mpr h.vaultId_eq))
    next hmine =>
    obtain ⟨hhash, hid⟩ := not_or.mp hmine
    exact commitSave_spec (some disk) hinj
      ⟨rfl, hshows, not_not.mp hmode, not_not.mp hhash, not_not.mp hid⟩ htidy hmax hrefl hG
  · next hfound =>
    have hcreate : createOnly = true := by
      cases found
      · simpa using hdiffers
      · exact absurd rfl hfound
    exact commitSave_spec none hinj hcreate htidy hmax hrefl hG

end Commit

end Whole

end PVault
