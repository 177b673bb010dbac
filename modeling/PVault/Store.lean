import PVault.Create
import PVault.Locks
import PVault.Restore

/-!
# The operations of the store (`src/store.c`)

`pv_store_save`, `pv_store_create` and `pv_store_restore` as their callers see them: each
takes the lock of the vault, does its work and gives the lock back. Each is specified next to
others who respect the lock: what it did is a section between two file systems, or nothing.
-/

namespace PVault

open Binary Conc

/-! ## Programs -/

section Programs

variable {Hash : Type} [DecidableEq Hash] (so : Sodium Hash) (host : Host)

/-- `pv_store_save`: the status, the vault and the header afterwards. -/
def pvStoreSave (env : SaveEnv) (vault : Vault Hash) (header : FileHeader) (retention : Nat) :
    SysM (PvStatus × Vault Hash × FileHeader) :=
  if vault.dirty = false ∨ retention = 0 then
    return (if vault.dirty = false then .ok else .errUsage, vault, header)
  else
    underLock vault.path (fun status => (status, vault, header)) fun location =>
      saveLocked so host env location vault header retention false

/-- `pv_store_create`: the status, and the vault unless it was destroyed. -/
def pvStoreCreate (env : CreateEnv) (path password : Bytes)
    (recoveryKey : Block pvRecoveryKeyBytes) : SysM (PvStatus × Option (Vault Hash)) := do
  let status ← onFiles (ensureParentDirectory path)
  if status ≠ .ok then
    return (status, none)
  else
    underLock path (fun status => (status, none)) fun location =>
      createLocked so host env path password recoveryKey location

/-- `pv_store_restore`. -/
def pvStoreRestore (env : RestoreEnv) (path backupPath : Bytes) (expected : Hash) :
    SysM PvStatus := do
  match ← onFiles (readDiskFile so host backupPath) with
  | .error status => return status
  | .ok backup =>
    if backup.hash ≠ expected then
      return .errAuth
    else
      underLock path id fun location => restoreLocked so host env path backup location

end Programs

/-! ## Acting outside the lock -/

section Outside

variable {faults : Bool} {c : Nat} {R : World → World → Prop} {outside : Fs → Fs → Prop}
  {work : Location → Fs → Fs → Fs → Prop} {w : World} {α : Type}

/-- The others act, or the client acts outside the lock. -/
abbrev Roams (R : World → World → Prop) (outside : Fs → Fs → Prop) : World → World → Prop :=
  Relation.ReflTransGen fun a b => R a b ∨ ∃ fs', outside a.fs fs' ∧ b = { a with fs := fs' }

/-- What the others may do to the files. -/
abbrev OnFiles (R : World → World → Prop) : Fs → Fs → Prop :=
  Relation.ReflTransGen fun a b => ∃ w₁ w₂, R w₁ w₂ ∧ w₁.fs = a ∧ w₂.fs = b

/-- **Acting on files** outside the lock. -/
theorem wp_outside {p : FileM α} {Q : α → Fs → Prop}
    (h : (files faults (OnFiles R) outside).wp p Q w.fs) :
    (system faults c R (Acts c outside work)).wp (onFiles p)
      (fun a w' => Roams R outside w w' ∧ Q a w'.fs) w := by
  refine Sem.wp_lift (S := files faults (OnFiles R) outside) World.fs (Roams R outside w) id
    (fun w₁ w₂ h₁ h₂ => ⟨h₁.tail (.inl h₂), .single ⟨w₁, w₂, h₂, rfl, rfl⟩⟩)
    (fun w₁ op r w₂ h₁ hstep => ?_) .refl h
  cases hstep with
  | file hstep =>
    rename_i fs'
    exact ⟨hstep, fun hout => ⟨h₁.tail (.inr ⟨fs', hout, rfl⟩), .outside hout⟩⟩

theorem Roams.idle (hR : Neighbours c R) {w' : World} (h : Roams R outside w w')
    (hidle : w.Idle c) : w'.Idle c := by
  induction h with
  | refl => exact hidle
  | tail _ hstep ih =>
    rcases hstep with hrely | ⟨fs', -, rfl⟩
    · exact hR.idle hrely ih
    · exact ih

/-- The others cannot tell what they do apart from what a chain of them does. -/
theorem onFiles_refl (fs : Fs) : OnFiles R fs fs := .refl

theorem onFiles_trans (a b d : Fs) (h : OnFiles R a b) (h' : OnFiles R b d) : OnFiles R a d :=
  h.trans h'

end Outside

/-! ## What the operations do -/

section Specs

variable {Hash : Type} [DecidableEq Hash] {so : Sodium Hash} {host : Host} {faults : Bool} {c : Nat}
  {R : World → World → Prop} {outside : Fs → Fs → Prop} {work : Location → Fs → Fs → Fs → Prop}
  {w : World}

/-- Every file that may be met at the end of the path is finished. -/
def TidyPath (R : World → World → Prop) (path : Bytes) (w : World) : Prop :=
  ∀ w₀ w₁ location, R w w₀ → w₀.fs.At path location → R w w₁ → w₁.fs.Tidy location

/-- What a save does under the lock. -/
def SaveWork (so : Sodium Hash) (host : Host) (faults : Bool) (env : SaveEnv) (vault : Vault Hash)
    (header : FileHeader) (location : Location) (fs : Fs) (r : PvStatus × Vault Hash × FileHeader)
    (fs' : Fs) : Prop :=
  SaveResult so host faults env (savePlan so env location vault header false (fs.active location)) vault
    header false fs r fs'

/-- **Saving.** -/
theorem pvStoreSave_spec {env : SaveEnv} {vault : Vault Hash} {header : FileHeader}
    {retention : Nat} (hR : Neighbours c R) (hidle : w.Idle c)
    (hinj : Function.Injective so.generichash) (htidy : TidyPath R vault.path w)
    (hdirty : vault.dirty = true) (hretention : retention ≠ 0)
    (hrefl : ∀ location start fs, work location start fs fs)
    (hwork : ∀ location w₁, R w w₁ → (sealVault so env (vault.stamped env.now) header).1 = .ok → ∀ a b,
      (savePlan so env location vault header false (w₁.fs.active location)).Step a b →
        work location w₁.fs a b) :
    (system faults c R (Acts c outside work)).wp (pvStoreSave so host env vault header retention)
      (LockOutcome faults c R vault.path (fun status => (status, vault, header))
        (SaveWork so host faults env vault header) w) w := by
  have hgo : ¬(vault.dirty = false ∨ retention = 0) := by
    rw [hdirty]
    exact not_or_intro nofun hretention
  rw [pvStoreSave, if_neg hgo]
  exact underLock_spec hR hidle fun location w₀ w₁ h₀ hat h₁ =>
    saveLocked_spec hinj (htidy w₀ w₁ location h₀ hat h₁) (hrefl _ _) (hwork location w₁ h₁)

/-- **Making a vault.** -/
theorem pvStoreCreate_spec {env : CreateEnv} {path password : Bytes}
    {recoveryKey : Block pvRecoveryKeyBytes} (hR : Neighbours c R) (hidle : w.Idle c)
    (hinj : Function.Injective so.generichash)
    (htidy : ∀ w₁, Roams R outside w w₁ → TidyPath R path w₁)
    (houtside : ∀ a b, Fs.Grows (Fs.components (parentPath path)) a b → outside a b)
    (hrefl : ∀ location start fs, work location start fs fs)
    (hwork : ∀ location w₁, Roams R outside w w₁ → ∀ vault header,
      Drawn so env path password recoveryKey vault header →
      (sealVault so env.save (vault.stamped env.save.now) header).1 = .ok → ∀ a b,
      (savePlan so env.save location vault header true (w₁.fs.active location)).Step a b →
        work location w₁.fs a b) :
    (system faults c R (Acts c outside work)).wp
      (pvStoreCreate so host env path password recoveryKey)
      (fun r w' => ∃ w₁, Roams R outside w w₁ ∧
        (w' = w₁ ∧ ¬r.1.Committed ∧ r.2 = none ∨
          LockOutcome faults c R path (fun status => (status, none))
            (CreateResult so faults env path password recoveryKey) w₁ r w')) w := by
  refine Sem.wp_then (wp_outside (ensureParentDirectory_spec onFiles_refl onFiles_trans houtside)) ?_
  rintro status w₁ ⟨hroams, -, hfailed, -⟩
  split
  · next hbad => exact ⟨w₁, hroams, .inl ⟨rfl, hfailed hbad, rfl⟩⟩
  · refine Sem.wp_mono (underLock_spec hR (hroams.idle hR hidle)
      fun location w₂ w₃ h₂ hat h₃ => createLocked_spec hinj (htidy w₁ hroams w₂ w₃ location h₂ hat h₃)
        (hrefl _ _) (hwork location w₃ (hroams.tail (.inl h₃)))) ?_
    exact fun r w₂ h => ⟨w₁, hroams, .inr h⟩

/-- **Restoring.** `P` is what is known about the backup when it has been read, and `E` why it could
not be. -/
theorem pvStoreRestore_spec {env : RestoreEnv} {path backupPath : Bytes} {expected : Hash}
    (P : DiskFile Hash → Prop) (E : PvStatus → Prop) (hR : Neighbours c R) (hidle : w.Idle c)
    (htidy : TidyPath R path w)
    (hreads : ∀ backup, P backup → backup.Reads so backup.bytes)
    (hread : (files faults (fun a b => Seen R w a → Seen R w b) fun a b => b = a).wp
      (readDiskFile so host backupPath) (fun r _ => (∀ disk, r = .ok disk → P disk) ∧
        ∀ status, r = .error status → ¬status.Committed ∧ E status) w.fs)
    (hwork : ∀ location w₁ (backup : DiskFile Hash), R w w₁ → P backup → backup.hash = expected →
      ∀ a b, (restorePlan so env location backup (w₁.fs.active location)).Step a b →
        work location w₁.fs a b) :
    (system faults c R (Acts c outside work)).wp
      (pvStoreRestore so host env path backupPath expected)
      (fun status w' => R w w' ∧ ¬status.Committed ∧
          (E status ∨ ∃ backup, P backup ∧ backup.hash ≠ expected) ∨
        ∃ backup w₁, P backup ∧ backup.hash = expected ∧ R w w₁ ∧
          LockOutcome faults c R path id (fun location fs => RestoreResult so faults
            (restorePlan so env location backup (fs.active location)) path backup fs) w₁ status w') w := by
  refine Sem.wp_then (wp_look hR hread) ?_
  rintro r w₁ ⟨h₁, hok, herr⟩
  cases r with
  | error status => exact .inl ⟨h₁, (herr status rfl).1, .inl (herr status rfl).2⟩
  | ok backup =>
  dsimp only
  split
  · next hother => exact .inl ⟨h₁, by decide, .inr ⟨backup, hok backup rfl, hother⟩⟩
  · next hhash =>
    have hP := hok backup rfl
    refine Sem.wp_mono (underLock_spec hR (hR.idle h₁ hidle) fun location w₂ w₃ h₂ hat h₃ =>
      restoreLocked_spec (hreads backup hP) ?_ ?_) fun status w₂ h => .inr
        ⟨backup, w₁, hP, not_not.mp hhash, h₁, h⟩
    · exact htidy w₂ w₃ location (hR.trans _ _ _ h₁ h₂) hat (hR.trans _ _ _ h₁ h₃)
    · exact hwork location w₃ backup (hR.trans _ _ _ h₁ h₃) hP (not_not.mp hhash)

end Specs

/-! ## A vault in a directory of its own -/

/-- A save with all the memory it asks for. -/
def readyEnv (now : Int64) : SaveEnv where
  now := now
  encode := true
  body := .granted
  draws := zeroDraws
  protect := true
  prune _ := ⟨.granted, .allocated, .allocated, sampleEnv⟩

/-- `/v` -/
def vaultPath : Bytes := [0x2f, 0x76]

/-- Where the path leads. -/
def vaultPlace : Location := ⟨0, [0x76]⟩

/-- A changed handle based on the snapshot of an empty vault. -/
def emptyHandle (generation : UInt64) (updated : Int64) : Vault Bytes where
  arena := sampleEmpty.arena
  vaultId := backupHeader.vaultId
  deviceId := Block.ofBytes _ [7]
  generation := generation
  createdMs := 0
  updatedMs := updated
  records := []
  recordCapacity := 16
  vmk := Block.zero _
  sourceHash := sealedBytes (emptySnapshot generation updated)
  dirty := true
  path := vaultPath

/-- The file system with that snapshot as its only file. -/
def onlyVault (generation : UInt64) (updated : Int64) : Fs :=
  { Fs.bare.bindFile 0 vaultPlace.name 0 with
    inodes := [publishedInode (sealedBytes (emptySnapshot generation updated)) 0o600] }

theorem emptyHandle_valid (generation : UInt64) (updated now : Int64) (hnow : 0 ≤ now) :
    ((emptyHandle generation updated).stamped now).payload.Valid :=
  ⟨show (0 : Int64) ≤ 0 by decide, hnow,
    show bytesAllZero (Block.ofBytes pvDeviceIdBytes [7]).bytes = false by decide,
    List.forall_mem_nil _⟩

theorem sealVault_emptyHandle (generation : UInt64) (updated now : Int64) (hnow : 0 ≤ now) :
    sealVault Sodium.toy (readyEnv now) ((emptyHandle generation updated).stamped now) backupHeader =
      emptySnapshot (generation + 1) now := by
  have hlen := Nat.le_trans (length_emptyPayload (generation + 1) now) (Nat.sub_le _ _)
  have henc : pvCborEncode ((emptyHandle generation updated).stamped now) true =
      (.ok, payloadBytes (emptyPayload (generation + 1) now)) :=
    (pvCborEncode_valid (emptyHandle_valid generation updated now hnow)).trans (if_pos hlen)
  simp only [sealVault, readyEnv, henc]
  rfl

section Only

variable (generation : UInt64) (updated : Int64)

theorem onlyVault_lookup (d : Nat) (name : Bytes) : (onlyVault generation updated).lookup d name =
    if d = 0 ∧ name = vaultPlace.name then some (.file 0) else none := by
  show (Fs.bare.bindFile 0 vaultPlace.name 0).lookup d name = _
  have hbare : Fs.bare.lookup d name = none := by
    cases d with
    | zero => rfl
    | succ d => rfl
  rw [Fs.lookup_bindFile, hbare]
  simp [Fs.bare]

theorem onlyVault_finished (d : Nat) (name : Bytes) : (onlyVault generation updated).Kept d name := by
  intro i hlook
  rw [onlyVault_lookup] at hlook
  split_ifs at hlook
  cases hlook
  exact ⟨_, rfl, rfl⟩

theorem onlyVault_leadsTo : (onlyVault generation updated).LeadsTo vaultPath vaultPlace :=
  ⟨[0x2f], _, by decide, rfl, rfl, rfl, by decide⟩

theorem onlyVault_noScratch : (onlyVault generation updated).NoScratch vaultPlace := by
  rintro d name ⟨base, suffix, rfl, -⟩
  rw [onlyVault_lookup, if_neg]
  rintro ⟨-, heq⟩
  have hlen := congrArg List.length heq
  rw [length_temporaryName] at hlen
  exact absurd hlen (by show base.length + 13 ≠ 1; omega)

theorem onlyVault_current : ∃ disk,
    (onlyVault generation updated).Current Sodium.toy vaultPlace (emptyHandle generation updated) disk := by
  obtain ⟨header, ciphertext, hseal, hv, hid, hct⟩ := emptySnapshot_ok generation updated
  have hbytes : sealedBytes (emptySnapshot generation updated) = serialized header ++ ciphertext := by
    rw [hseal, sealedBytes]
  refine ⟨sealedDisk Sodium.toy header ciphertext
    ((publishedInode (serialized header ++ ciphertext) 0o600).stat 0), ⟨0, _, ?_, rfl, ⟨rfl, rfl, ?_⟩, ?_,
      ?_⟩, rfl, ?_, hid⟩
  · rw [onlyVault_lookup, if_pos ⟨rfl, rfl⟩]
  · exact .inr rfl
  · show DiskFile.Reads Sodium.toy _ (sealedBytes _)
    rw [hbytes]
    exact sealedDisk_reads _ hv hct
  · show _ = (publishedInode (sealedBytes _) 0o600).stat 0
    rw [hbytes]
    rfl
  · exact hbytes.symm

theorem onlyVault_backupFree {plan : Plan} (hplan : plan.location = vaultPlace)
    {vaultId : Block pvVaultIdBytes} {disk : DiskFile Bytes} :
    (onlyVault generation updated).BackupFree Sodium.toy plan vaultId disk := by
  have hnone : (onlyVault generation updated).lookup plan.location.dir backupsName = none := by
    rw [hplan, onlyVault_lookup, if_neg fun h => absurd h.2 (by decide)]
  refine ⟨.inl ⟨hnone, ?_⟩, fun d hdir => ?_⟩
  · rw [hplan]
    exact Nat.zero_lt_one
  · rw [hnone] at hdir
    cases hdir

theorem emptyHandle_sealable (now : Int64) (hnow : 0 ≤ now)
    (hmax : generation.toNat ≠ 2 ^ 64 - 1) :
    (emptyHandle generation updated).Sealable Sodium.toy (readyEnv now) backupHeader where
  bounded := hmax
  sealed_ok := by
    obtain ⟨header, ciphertext, hseal, -⟩ := emptySnapshot_ok (generation + 1) now
    show (sealVault Sodium.toy (readyEnv now) ((emptyHandle generation updated).stamped now)
      backupHeader).1 = _
    rw [sealVault_emptyHandle generation updated now hnow, hseal]
  usable := backupHeader_usable

end Only

end PVault
