import PVault.Timeline

/-!
# When a vault with a history can be saved (`src/store.c`)

A restore takes the generation of a vault back, and the copies in `backups` are named by the
generation. When two snapshots of one generation have been active, the copy of the second finds its
name taken by the first, and the save that wants it fails.

The runs here are put together from the operations on a stage: what the active name holds, which
names are taken in `backups`, and which copies are there.

* `World.Stage.saves`, `World.Stage.restores` — saving and restoring take one stage to another.
* `save_succeeds_iff_backup_clear` — a save in any history succeeds just if its copy has a place.
* `restored_vault_unwritable` — a vault is made, saved, restored, saved twice, restored once more,
  and cannot be saved.
-/

namespace PVault

open Binary Conc

/-! ## What is in `backups` -/

/-- `backups`, if it is there, is private. -/
def Fs.Guarded (location : Location) (fs : Fs) : Prop :=
  ∀ d, fs.lookup location.dir backupsName = some (.dir d) → fs.statDir d = some ⟨true, 0o700⟩

/-- No other finished name is in `backups`. -/
def Fs.Listed (location : Location) (names : List Bytes) (fs : Fs) : Prop :=
  ∀ d name, fs.lookup location.dir backupsName = some (.dir d) → ¬Scratch location d name →
    fs.lookup d name ≠ none → name ∈ names

/-- A snapshot is in `backups`. -/
def Fs.Keeps (location : Location) (fs : Fs) (name data : Bytes) : Prop :=
  snapshotExtension <:+ name ∧
    ∃ d, fs.lookup location.dir backupsName = some (.dir d) ∧ fs.HoldsPrivate ⟨d, name⟩ data

/-- The name in `backups` is free or that of a private file. -/
def Fs.PrivateAt (location : Location) (name : Bytes) (fs : Fs) : Prop :=
  ∀ d, fs.lookup location.dir backupsName = some (.dir d) →
    fs.lookup d name = none ∨ ∃ data, fs.HoldsPrivate ⟨d, name⟩ data

section Shelves

variable {plan : Plan} {a b : Fs} {path name : Bytes} {names : List Bytes}

namespace Plan

/-- A directory of backups that is there after a step was there before, or it is new. -/
theorem Step.backups_cases {d : Nat} (h : plan.Step a b)
    (hdir : b.lookup plan.location.dir backupsName = some (.dir d)) :
    a.lookup plan.location.dir backupsName = some (.dir d) ∨
      b.statDir d = some ⟨true, 0o700⟩ ∧ ∀ name, b.lookup d name = none := by
  cases h with
  | quiet h => exact .inl ((h.dir_iff _ _ d).mp hdir)
  | made _ h =>
    by_cases hnone : a.lookup plan.location.dir backupsName = none
    · refine .inr ⟨h.new_private d hnone hdir, fun name => ?_⟩
      rcases h.lookup_backup hdir name with ⟨hdir', -⟩ | hfree
      · exact absurd (hnone.symm.trans hdir') nofun
      · exact hfree
    · exact .inl ((h.lookup_eq _ _ (.inl hnone)).symm.trans hdir)
  | backup _ _ _ _ h => exact .inl ((h.dir_iff _ _ d).mp hdir)
  | replace _ _ _ _ h => exact .inl ((h.dir_iff _ _ d).mp hdir)
  | create _ _ h => exact .inl ((h.dir_iff _ _ d).mp hdir)
  | pruned hdir' h =>
    exact .inl ((h.lookup_eq _ _ fun hbad => Fs.backups_ne hdir' hbad.1.symm).symm.trans hdir)

theorem Step.guarded (h : plan.Step a b) (ha : a.Guarded plan.location) : b.Guarded plan.location := by
  intro d hdir
  rcases h.backups_cases hdir with hold | ⟨hnew, -⟩
  · have hprivate := ha d hold
    cases h with
    | quiet h => exact (h.statDir_eq d).trans hprivate
    | made _ h => exact h.stays_private hprivate
    | backup _ _ _ _ h => exact (h.statDir_eq d).trans hprivate
    | replace _ _ _ _ h => exact (h.statDir_eq d).trans hprivate
    | create _ _ h => exact (h.statDir_eq d).trans hprivate
    | pruned _ h => exact (h.statDir_eq d).trans hprivate
  · exact hnew

/-- Only the copy gets a name in `backups`. -/
theorem Step.bound_backups {d : Nat} (h : plan.Step a b)
    (hdir : a.lookup plan.location.dir backupsName = some (.dir d))
    (hname : ¬Scratch plan.location d name) (hbound : b.lookup d name ≠ none) :
    a.lookup d name ≠ none ∨ name = plan.backup := by
  have hother : (d, name) ≠ (plan.location.dir, plan.location.name) := fun heq =>
    Fs.backups_ne hdir (Prod.mk.inj heq).1
  cases h with
  | quiet h => exact .inl (h.lookup_eq d name hname ▸ hbound)
  | made _ h =>
    refine .inl (h.lookup_eq d name (.inr fun heq => ?_) ▸ hbound)
    exact Fs.backups_ne hdir (Prod.mk.inj heq).1
  | @backup d' _ _ _ _ _ _ h =>
    by_cases heq : (d, name) = (d', plan.backup)
    · exact .inr (Prod.mk.inj heq).2
    · exact .inl (h.lookup_ne d name hname heq ▸ hbound)
  | replace _ _ _ _ h => exact .inl (h.lookup_ne d name hname hother ▸ hbound)
  | create _ _ h => exact .inl (h.lookup_ne d name hname hother ▸ hbound)
  | @pruned d' hdir' h =>
    obtain rfl : d' = d := Node.dir.inj (Option.some.inj (hdir'.symm.trans hdir))
    rcases h.lookup_cases name with hsame | ⟨hgone, -⟩
    · exact .inl (hsame ▸ hbound)
    · exact absurd hgone hbound

theorem Step.listed (h : plan.Step a b) (hbackup : plan.backup ∈ names)
    (ha : a.Listed plan.location names) : b.Listed plan.location names := by
  intro d name hdir hname hbound
  rcases h.backups_cases hdir with hold | ⟨-, hempty⟩
  · rcases h.bound_backups hold hname hbound with hbefore | rfl
    · exact ha d name hold hname hbefore
    · exact hbackup
  · exact absurd (hempty name) hbound

theorem Steps.shelf (h : plan.Steps a b) (hbackup : plan.backup ∈ names)
    (hguarded : a.Guarded plan.location) (hlisted : a.Listed plan.location names) :
    b.Guarded plan.location ∧ b.Listed plan.location names := by
  induction h with
  | refl => exact ⟨hguarded, hlisted⟩
  | tail _ hstep ih => exact ⟨hstep.guarded ih.1, hstep.listed hbackup ih.2⟩

/-- A copy that is not pruned stays. -/
theorem Step.keeps {data : Bytes} (h : plan.Step a b) (ha : a.Unshared plan.location)
    (hprunes : ¬plan.prunes name) (hkept : a.Keeps plan.location name data) :
    b.Keeps plan.location name data := by
  obtain ⟨hsnapshot, d, hdir, hholds⟩ := hkept
  refine ⟨hsnapshot, d, h.evolves.dir_mono _ _ _ hdir, ?_⟩
  rcases h.holdsPrivate ha (not_scratch_snapshot hsnapshot) (fun _ => hprunes) hholds with
    hsame | ⟨hactive, -⟩
  · exact hsame
  · exact absurd (congrArg Location.dir hactive) (Fs.backups_ne hdir)

theorem Steps.keeps {data : Bytes} (h : plan.Steps a b) (ha : a.Settled path plan.location)
    (hprunes : ¬plan.prunes name) (hkept : a.Keeps plan.location name data) :
    b.Keeps plan.location name data := by
  induction h with
  | refl => exact hkept
  | tail hsteps hstep ih => exact hstep.keeps (ha.steps hsteps).unshared hprunes ih

/-- A name that is not pruned is free, or that of a private file. -/
theorem Step.privateAt (h : plan.Step a b) (ha : a.Unshared plan.location)
    (hsnapshot : snapshotExtension <:+ name) (hprunes : ¬plan.prunes name)
    (hprivate : a.PrivateAt plan.location name) : b.PrivateAt plan.location name := by
  intro d hdir
  rcases h.backups_cases hdir with hold | ⟨-, hempty⟩
  swap
  · exact .inl (hempty name)
  have hname : ¬Scratch plan.location d name := not_scratch_snapshot hsnapshot
  rcases hprivate d hold with hfree | ⟨data, hholds⟩
  · by_cases hbound : b.lookup d name = none
    · exact .inl hbound
    -- Only the copy can be new.
    · rcases h.bound_backups hold hname hbound with hbefore | rfl
      · exact absurd hfree hbefore
      cases h with
      | quiet h => exact .inl ((h.lookup_eq _ _ hname).trans hfree)
      | made _ h =>
        refine .inl ((h.lookup_eq _ _ (.inr fun heq => ?_)).trans hfree)
        exact Fs.backups_ne hold (Prod.mk.inj heq).1
      | @backup d' i data _ _ hdir' _ h =>
        obtain rfl : d' = d := Node.dir.inj (Option.some.inj (hdir'.symm.trans hold))
        exact .inr ⟨data, i, h.lookup_eq, h.inode_eq⟩
      | replace _ _ _ _ h =>
        refine .inl ((h.lookup_ne _ _ hname fun heq => ?_).trans hfree)
        exact Fs.backups_ne hold (Prod.mk.inj heq).1
      | create _ _ h =>
        refine .inl ((h.lookup_ne _ _ hname fun heq => ?_).trans hfree)
        exact Fs.backups_ne hold (Prod.mk.inj heq).1
      | pruned _ h => exact .inl ((h.lookup_eq _ _ fun hbad => hprunes hbad.2).trans hfree)
  · obtain ⟨-, d', hdir', hholds'⟩ := h.keeps ha hprunes ⟨hsnapshot, d, hold, hholds⟩
    obtain rfl : d' = d := Node.dir.inj (Option.some.inj (hdir'.symm.trans hdir))
    exact .inr ⟨data, hholds'⟩

theorem Steps.privateAt (h : plan.Steps a b) (ha : a.Settled path plan.location)
    (hsnapshot : snapshotExtension <:+ name) (hprunes : ¬plan.prunes name)
    (hprivate : a.PrivateAt plan.location name) : b.PrivateAt plan.location name := by
  induction h with
  | refl => exact hprivate
  | tail hsteps hstep ih => exact hstep.privateAt (ha.steps hsteps).unshared hsnapshot hprunes ih

end Plan

end Shelves

/-! ## Stages of a history -/

/-- **A stage**: the directory is in order, the active name holds `active`, no other names than
`names` are taken in `backups`, and the `copies` are there. -/
structure World.Stage (path : Bytes) (location : Location) (active : Bytes) (names : List Bytes)
    (copies : List (Bytes × Bytes)) (w : World) : Prop where
  orderly : w.Orderly path location
  holds : w.fs.HoldsPrivate location active
  guarded : w.fs.Guarded location
  listed : w.fs.Listed location names
  kept : ∀ p ∈ copies, w.fs.Keeps location p.1 p.2

section Stages

variable {Hash : Type} {so : Sodium Hash} {c : Nat} {path active name : Bytes} {location : Location}
  {names : List Bytes} {copies kept : List (Bytes × Bytes)} {w w' : World}
variable {data : Bytes} {env : SaveEnv} {vault : Vault Hash} {header : FileHeader}
  {disk current : DiskFile Hash}

/-- The active name is that of a private file, so it is known when its contents are. -/
theorem World.Orderly.holds (h : w.Orderly path location)
    (hactive : w.fs.active location = .holds data) : w.fs.HoldsPrivate location data := by
  rcases h.settled.active with hnone | ⟨data', hholds⟩
  · rw [Fs.active, Fs.slot, hnone] at hactive
    cases hactive
  · rw [hholds.active] at hactive
    exact Slot.holds.inj hactive ▸ hholds

/-- **From stage to stage**: the old snapshot gets a copy and the new one becomes active. -/
theorem World.Stage.next {plan : Plan} (h : w.Stage path location active names copies)
    (hplan : plan.location = location) (horderly : w'.Orderly path location)
    (hsteps : plan.Steps w.fs w'.fs) (hactive : w'.fs.active location = .holds data)
    (hcopied : plan.Copied w'.fs active)
    (hfree : plan.backup ∉ names ∨ ∃ data, (plan.backup, data) ∈ copies)
    (hkept : ∀ p ∈ kept, p ∈ copies ∧ ¬plan.prunes p.1) :
    w'.Stage path location data (plan.backup :: names) ((plan.backup, active) :: kept) := by
  subst hplan
  have hsettled := h.orderly.settled
  obtain ⟨hguarded, hlisted⟩ := hsteps.shelf List.mem_cons_self h.guarded fun d name hdir hname hbound =>
    List.mem_cons_of_mem _ (h.listed d name hdir hname hbound)
  -- The name of the copy was free, or that of a copy.
  have hprivate : w.fs.PrivateAt plan.location plan.backup := by
    intro d hdir
    rcases hfree with hnew | ⟨data', hmem⟩
    · refine .inl (by_contra fun hbound => hnew ?_)
      exact h.listed d _ hdir (not_scratch_snapshot plan.backup_snapshot) hbound
    · obtain ⟨-, d', hdir', hholds⟩ := h.kept _ hmem
      obtain rfl : d' = d := Node.dir.inj (Option.some.inj (hdir'.symm.trans hdir))
      exact .inr ⟨data', hholds⟩
  refine ⟨horderly, horderly.holds hactive, hguarded, hlisted, fun p hp => ?_⟩
  rcases List.mem_cons.mp hp with rfl | hp
  · obtain ⟨d, hdir, hslot⟩ := hcopied
    refine ⟨plan.backup_snapshot, d, hdir, ?_⟩
    rcases hsteps.privateAt hsettled plan.backup_snapshot plan.backup_stays hprivate d hdir with
      hnone | ⟨data', hholds⟩
    · rw [Fs.slot, hnone] at hslot
      cases hslot
    · have hsame : w'.fs.slot d plan.backup = .holds data' := hholds.active
      rw [hslot] at hsame
      exact Slot.holds.inj hsame ▸ hholds
  · exact hsteps.keeps hsettled (hkept p hp).2 (h.kept p (hkept p hp).1)

/-- A handle on the active snapshot of a stage should be saved. -/
theorem World.Stage.qualifies (h : w.Stage vault.path location active names copies)
    (hdirty : vault.dirty = true) (husable : header.Usable) (hgranted : env.Granted)
    (hlimits : vault.WithinLimits env.now) (hstored : vault.generation ≠ 0)
    (hreads : disk.Reads so active) (hhash : so.generichash active = vault.sourceHash)
    (hid : disk.header.vaultId = vault.vaultId) : ∃ current : DiskFile Hash,
      Qualifies so vault.path env vault header current w.fs := by
  obtain ⟨st, -, hshows⟩ := h.holds.shows hreads
  exact ⟨_, ⟨rfl, hdirty, husable, hgranted, hlimits, hstored, ⟨location, h.orderly.settled.leadsTo.at,
    hshows⟩, hreads.hash_eq.trans hhash, hid⟩⟩

variable [DecidableEq Hash] (host : Host)

omit [DecidableEq Hash] in
/-- The copy of the active snapshot has a place, if its name is free or that of the very copy. -/
theorem World.Stage.backupClear (h : w.Stage path location active names copies)
    (hq : Qualifies so path env vault header current w.fs) (hname : location.name ≠ backupsName)
    (hfree : autoBackupName vault.vaultId vault.generation.toNat ∉ names ∨
      (autoBackupName vault.vaultId vault.generation.toNat, active) ∈ copies) :
    w.fs.BackupClear so path vault current := by
  have hcurrent := hq.isCurrent h.orderly
  intro location' hat
  rw [hat.unique h.orderly.settled.leadsTo.at]
  refine ⟨hname, fun d hdir => ?_⟩
  rcases hfree with hnew | hmem
  · refine .inl (by_contra fun hbound => hnew (h.listed d _ hdir ?_ hbound))
    exact not_scratch_snapshot (autoBackupName_snapshot _ _)
  · obtain ⟨-, d', hdir', hholds⟩ := h.kept _ hmem
    obtain rfl : d' = d := Node.dir.inj (Option.some.inj (hdir'.symm.trans hdir))
    obtain ⟨st, -, hshows⟩ := hholds.shows (h.holds.reads hcurrent.shows).1
    exact .inr ⟨_, hshows, hcurrent.vaultId_eq, rfl⟩

/-- **Saving** a handle on the active snapshot, with the name of its copy free or that of the very
copy. -/
theorem World.Stage.saves (hinj : Function.Injective so.generichash) (hso : so.Documented)
    {retention : Nat} (h : w.Stage vault.path location active names copies)
    (hq : Qualifies so vault.path env vault header current w.fs) (hretention : retention ≠ 0)
    (hname : location.name ≠ backupsName)
    (hfree : autoBackupName vault.vaultId vault.generation.toNat ∉ names ∨
      (autoBackupName vault.vaultId vault.generation.toNat, active) ∈ copies)
    (hkept : ∀ p ∈ kept, p ∈ copies ∧
      ∀ generation < vault.generation.toNat, p.1 ≠ autoBackupName vault.vaultId generation) :
    ∃ r w', Sem.Run (undisturbed c) (pvStoreSave so host env vault header retention) w (.ret r) w' ∧
      r.1 = .ok ∧ w'.Stage vault.path location
        (sealedBytes (sealVault so env (vault.stamped env.now) header))
        (autoBackupName vault.vaultId vault.generation.toNat :: names)
        ((autoBackupName vault.vaultId vault.generation.toNat, active) :: kept) := by
  obtain ⟨r, w', hrun⟩ := h.orderly.returns (c := c) hinj host env header hq.dirty hretention
  have hok := (hq.saves hinj hso h.orderly hretention hrun).1.mpr (h.backupClear hq hname hfree)
  obtain ⟨hwork, -⟩ := h.orderly.saves hinj hq.dirty hretention hrun
  have hdone := hwork.committed (.inl hok)
  obtain ⟨data, hdata, -, hcopied⟩ := hdone.replaced rfl
  have hsame : w.fs.active location = .holds data := hdata
  rw [h.holds.active] at hsame
  rw [← Slot.holds.inj hsame] at hcopied
  refine ⟨r, w', hrun, hok, h.next rfl (h.orderly.saved hinj hrun) hwork.steps hdone.active hcopied
    (hfree.imp_right fun hmem => ⟨_, hmem⟩) fun p hp => ⟨(hkept p hp).1, ?_⟩⟩
  rintro ⟨-, generation, hparse, hlt⟩
  exact (hkept p hp).2 generation hlt (format_of_parse hparse)

/-- **Restoring** a copy over a snapshot of the same vault. -/
theorem World.Stage.restores (env : RestoreEnv) {backupPath : Bytes} {other : DiskFile Hash}
    (h : w.Stage path location active names copies) (hname : location.name ≠ backupsName)
    (hmem : (name, data) ∈ copies)
    (hpath : ∀ d, w.fs.lookup location.dir backupsName = some (.dir d) → w.fs.At backupPath ⟨d, name⟩)
    (hdisk : disk.Reads so data) (hother : other.Reads so active)
    (hid : other.header.vaultId = disk.header.vaultId)
    (hfree : preRestoreName env.now.toInt env.suffix ∉ names) :
    ∃ w', Sem.Run (undisturbed c)
      (pvStoreRestore so host env path backupPath (so.generichash data)) w (.ret .ok) w' ∧
      w'.Stage path location data (preRestoreName env.now.toInt env.suffix :: names)
        ((preRestoreName env.now.toInt env.suffix, active) :: copies) := by
  obtain ⟨-, d, hdir, hholds⟩ := h.kept _ hmem
  obtain ⟨st, -, hshows⟩ := hholds.shows hdisk
  obtain ⟨st', -, hshown⟩ := h.holds.shows hother
  have hleads : w.fs.LeadsTo backupPath ⟨d, name⟩ := by
    obtain ⟨dir, hat, hstat⟩ := Option.map_eq_some_iff.mp (h.guarded d hdir)
    refine (hpath d hdir).leadsTo ⟨dir, hat, ?_⟩
    rw [Dir.isParent, (DirStat.mk.inj hstat).1, (DirStat.mk.inj hstat).2]
    exact ⟨rfl, by decide⟩
  have hsettled := h.orderly.settled
  obtain ⟨status, w', hrun, rfl, hwork, -⟩ := returns_undisturbed (pvStoreRestore_succeeds (c := c)
    host (h.orderly.idle c) hsettled.leadsTo hsettled.tidy (by simp [h.orderly.unlocked])
    hsettled.short h.orderly.noScratch hleads hshows (.inr ⟨⟨_, hshown, hid⟩, hsettled.hosts hname,
      fun d' hdir' => by_contra fun hbound => hfree (h.listed d' _ hdir'
        (not_scratch_snapshot (preRestoreName_snapshot _ _)) hbound)⟩))
  have hrun' : Sem.Run (undisturbed c)
      (pvStoreRestore so host env path backupPath (so.generichash data)) w (.ret .ok) w' := by
    rw [← hdisk.hash_eq]
    exact hrun
  have hcopied : (restorePlan so env location { disk with stat := st } (w.fs.active location)).Copied
      w'.fs active := by
    rcases hwork.replaced (.inl rfl) with hnone | ⟨data', hdata, -, hcopied⟩
    · obtain ⟨i, hlook, -⟩ := h.holds
      exact absurd (hlook.symm.trans hnone) (Option.some_ne_none _)
    · have hsame : w.fs.active location = .holds data' := hdata
      rw [h.holds.active] at hsame
      exact Slot.holds.inj hsame ▸ hcopied
  have hactive : w'.fs.active location = .holds data :=
    (hwork.active (.inl rfl)).trans (congrArg Slot.holds hdisk.bytes_eq)
  exact ⟨w', hrun', h.next rfl (h.orderly.restored hrun) hwork.steps hactive hcopied (.inl hfree)
    fun p hp => ⟨hp, not_false⟩⟩

end Stages

/-! ## The run -/

/-- The `n`-th time the vault is written: its nonce tells the snapshots apart. -/
def writeEnv (n : UInt8) : SaveEnv :=
  { readyEnv 0 with draws := ⟨fun k => Block.zero k, Block.ofBytes _ [n]⟩ }

/-- What the vault is made of. -/
def firstEnv : CreateEnv where
  arena := .allocated
  vmkMem := .allocated
  vaultId := backupHeader.vaultId
  deviceId := Block.ofBytes _ [7]
  vmk := Block.zero _
  created := 0
  header := ⟨Block.zero _, ⟨Block.zero _, Block.zero _⟩, Block.zero _⟩
  passwordMem := .granted
  recoveryMem := .granted
  save := writeEnv 1

/-- The recovery key of the vault. -/
def firstKey : Block pvRecoveryKeyBytes := Block.ofBytes _ [6]

/-- The header of the vault, with its two keyslots. -/
def firstHeader : FileHeader := (newHeader Sodium.toy firstEnv [0x61] firstKey).2

/-- The snapshot of a generation, as the `n`-th write leaves it. -/
def writtenSnapshot (n : UInt8) (generation : UInt64) : Bytes :=
  sealedBytes (pvCryptoEncryptBody Sodium.toy firstHeader (Block.zero _)
    (payloadBytes (emptyPayload generation 0)) (writeEnv n).draws .granted)

/-- A changed handle on that snapshot. -/
def handleOn (n : UInt8) (generation : UInt64) : Vault Bytes :=
  { emptyHandle generation 0 with sourceHash := writtenSnapshot n generation }

/-- `/backups/<name>`. -/
def backupPath (name : Bytes) : Bytes := [0x2f] ++ backupsName ++ [0x2f] ++ name

theorem newHeader_first : newHeader Sodium.toy firstEnv [0x61] firstKey = (.ok, firstHeader) := rfl

theorem firstHeader_usable : firstHeader.Usable :=
  ⟨rfl, rfl, rfl, rfl, rfl, by decide, rfl, rfl, rfl, rfl, by decide, by decide,
    1, by decide, by decide, rfl⟩

theorem writtenSnapshot_ok (n : UInt8) (generation : UInt64) : ∃ header ciphertext,
    pvCryptoEncryptBody Sodium.toy firstHeader (Block.zero _) (payloadBytes (emptyPayload generation 0))
      (writeEnv n).draws .granted = (.ok, header, ciphertext) ∧
    writtenSnapshot n generation = serialized header ++ ciphertext ∧ header.V1 ∧
      header.vaultId = backupHeader.vaultId ∧ header.bodyNonce = Block.ofBytes _ [n] ∧
      ciphertext.length = header.bodyCiphertextLen.toNat := by
  have hne : payloadBytes (emptyPayload generation 0) ≠ [] := fun h =>
    payloadBytes_ne_nil (emptyPayload generation 0) (congrArg List.length h)
  obtain ⟨header, ciphertext, henc, -⟩ := pvCryptoEncryptBody_fits Sodium.toy_documented firstHeader
    (Block.zero _) (writeEnv n).draws hne (length_emptyPayload generation 0)
  obtain ⟨hv, hct, hframe⟩ := pvCryptoEncryptBody_v1 firstHeader_usable henc
  obtain ⟨key, pages, -, -, -, hheader, -⟩ := pvCryptoEncryptBody_ok henc
  refine ⟨header, ciphertext, henc, by rw [writtenSnapshot, henc, sealedBytes], hv, ?_, ?_, hct⟩
  · rw [hframe]
    rfl
  · rw [hheader]
    rfl

theorem writtenSnapshot_reads (n : UInt8) (generation : UInt64) : ∃ disk : DiskFile Bytes,
    disk.Reads Sodium.toy (writtenSnapshot n generation) ∧
      disk.header.vaultId = backupHeader.vaultId := by
  obtain ⟨header, ciphertext, -, hbytes, hv, hid, -, hct⟩ := writtenSnapshot_ok n generation
  refine ⟨sealedDisk Sodium.toy header ciphertext ((publishedInode [] 0o600).stat 0), ?_, hid⟩
  rw [hbytes]
  exact sealedDisk_reads _ hv hct

/-- Two writes leave two snapshots. -/
theorem writtenSnapshot_ne {n m : UInt8} (hne : (Block.ofBytes pvWrapNonceBytes [n]) ≠ Block.ofBytes _ [m])
    (generation generation' : UInt64) :
    writtenSnapshot n generation ≠ writtenSnapshot m generation' := by
  obtain ⟨header, ciphertext, -, hbytes, -, -, hnonce, -⟩ := writtenSnapshot_ok n generation
  obtain ⟨header', ciphertext', -, hbytes', -, -, hnonce', -⟩ := writtenSnapshot_ok m generation'
  intro heq
  rw [hbytes, hbytes'] at heq
  have hlen : (serialized header).length = (serialized header').length := by
    rw [length_serialized, length_serialized]
  have hsame := serialized_injective (List.append_inj_left heq hlen)
  rw [hsame, hnonce'] at hnonce
  exact hne hnonce.symm

theorem writeEnv_granted (n : UInt8) : (writeEnv n).Granted := ⟨rfl, rfl⟩

theorem handleOn_payload (n : UInt8) (generation : UInt64) (now : Int64) :
    ((handleOn n generation).stamped now).payload = emptyPayload (generation + 1) now := rfl

theorem handleOn_limits (n : UInt8) {generation : UInt64} (hmax : generation.toNat ≠ 2 ^ 64 - 1) :
    (handleOn n generation).WithinLimits 0 where
  bounded := hmax
  valid := by
    rw [handleOn_payload]
    exact emptyHandle_valid generation 0 0 (by decide)
  fits := by
    rw [handleOn_payload]
    exact length_emptyPayload (generation + 1) 0

/-- What the save of a handle writes. -/
theorem sealVault_handleOn (n m : UInt8) {generation : UInt64} (hmax : generation.toNat ≠ 2 ^ 64 - 1) :
    sealedBytes (sealVault Sodium.toy (writeEnv m) ((handleOn n generation).stamped (writeEnv m).now)
      firstHeader) = writtenSnapshot m (generation + 1) := by
  have hlimits : (handleOn n generation).WithinLimits (writeEnv m).now := handleOn_limits n hmax
  rw [hlimits.sealVault_eq (writeEnv_granted m), handleOn_payload]
  rfl

/-- The world before: an empty directory. -/
def emptyWorld : World := ⟨Fs.bare, [], []⟩

theorem bare_lookup (d : Nat) (name : Bytes) : Fs.bare.lookup d name = none := by
  cases d with
  | zero => rfl
  | succ d => rfl

theorem bare_settled : Fs.bare.Settled vaultPath vaultPlace where
  leadsTo := ⟨[0x2f], _, by decide, rfl, rfl, rfl, by decide⟩
  short := by decide
  tidy d name _ i hlook := absurd ((bare_lookup d name).symm.trans hlook) nofun
  unshared d name _ _ _ _ _ hlook := absurd ((bare_lookup d name).symm.trans hlook) nofun
  hosts _ := .inl ⟨bare_lookup _ _, Nat.zero_lt_one⟩
  active := .inl (bare_lookup _ _)

theorem emptyWorld_orderly : emptyWorld.Orderly vaultPath vaultPlace :=
  ⟨rfl, bare_settled, fun d name _ => bare_lookup d name⟩

theorem emptyWorld_unused : emptyWorld.Unused vaultPath where
  absolute := rfl
  unlocked := rfl
  finished d name i hlook := absurd ((bare_lookup d name).symm.trans hlook) nofun
  settled fs hgrown location hleads := by
    obtain rfl := bare_settled.grown rfl hgrown
    rw [hleads.at.unique bare_settled.leadsTo.at]
    exact ⟨bare_settled, fun d name _ => bare_lookup d name⟩

/-- The vault that is made, before it is saved for the first time. -/
theorem drawn_first : ∃ vault : Vault Bytes,
    Drawn Sodium.toy firstEnv vaultPath [0x61] firstKey vault firstHeader ∧
      vault.vaultId = backupHeader.vaultId ∧ vault.vmk = Block.zero _ ∧
      (vault.stamped 0).payload = emptyPayload 1 0 := by
  obtain ⟨fresh, hinit⟩ := pvModelInit_granted Sodium.toy.zeroHash (show vaultPath.length < pathMax by decide)
  have hnew : newVault Sodium.toy firstEnv vaultPath = .ok { fresh with
      vaultId := backupHeader.vaultId, deviceId := Block.ofBytes _ [7], vmk := Block.zero _, createdMs := 0,
      updatedMs := 0, generation := 0, dirty := true } := by
    rw [newVault, show firstEnv.arena = .allocated from rfl,
      show firstEnv.vmkMem = .allocated from rfl, hinit]
    rfl
  refine ⟨_, ⟨hnew, newHeader_first⟩, rfl, rfl, ?_⟩
  have hempty := (pvModelInit_ok hinit).records_eq
  simp only [Vault.payload, Vault.view, Vault.stamped, hempty]
  rfl

/-- **The first stage**: the vault is made. -/
theorem firstStage : ∃ saved w, Sem.Run (undisturbed 0)
    (pvStoreCreate Sodium.toy plainHost firstEnv vaultPath [0x61] firstKey) emptyWorld
      (.ret (.ok, saved)) w ∧
      w.Stage vaultPath vaultPlace (writtenSnapshot 1 1) [backupName 0] [] := by
  obtain ⟨vault, hdrawn, hid, hvmk, hpayload⟩ := drawn_first
  have hlimits : vault.WithinLimits (writeEnv 1).now := by
    refine ⟨by rw [hdrawn.generation_eq]; decide, ?_, ?_⟩
    · rw [show (writeEnv 1).now = 0 from rfl, hpayload]
      exact emptyHandle_valid 0 0 0 (by decide)
    · rw [show (writeEnv 1).now = 0 from rfl, hpayload]
      exact length_emptyPayload 1 0
  have hcontent : sealedBytes (sealVault Sodium.toy (writeEnv 1) (vault.stamped (writeEnv 1).now) firstHeader) =
      writtenSnapshot 1 1 := by
    rw [hlimits.sealVault_eq (writeEnv_granted 1), hvmk, show (writeEnv 1).now = 0 from rfl, hpayload]
    rfl
  obtain ⟨⟨status, saved⟩, w, hrun, rfl, hwork⟩ := emptyWorld_orderly.creates (c := 0)
    Sodium.toy_injective rfl hdrawn (hlimits.sealable Sodium.toy_documented (writeEnv_granted 1)
      firstHeader_usable) (bare_lookup _ _)
  have horderly := emptyWorld_orderly.createdAgain Sodium.toy_injective rfl hrun
  obtain ⟨vault', header', saved', header'', hdrawn', -, hdone⟩ := hwork.committed (.inl rfl)
  -- What was drawn is the vault above.
  obtain rfl : vault = vault' := Except.ok.inj (hdrawn.vault_eq.symm.trans hdrawn'.vault_eq)
  obtain rfl : firstHeader = header' := (Prod.mk.inj (hdrawn.header_eq.symm.trans hdrawn'.header_eq)).2
  have hsteps : (savePlan Sodium.toy (writeEnv 1) vaultPlace vault firstHeader true
      (emptyWorld.fs.active vaultPlace)).Steps emptyWorld.fs w.fs := by
    rcases hwork.effect with hsame | ⟨vault'', header''', hdrawn'', hsteps⟩
    · exact hsame ▸ .refl
    · obtain rfl : vault = vault'' := Except.ok.inj (hdrawn.vault_eq.symm.trans hdrawn''.vault_eq)
      obtain rfl : firstHeader = header''' :=
        (Prod.mk.inj (hdrawn.header_eq.symm.trans hdrawn''.header_eq)).2
      exact hsteps
  have hbackup : (savePlan Sodium.toy (writeEnv 1) vaultPlace vault firstHeader true
      (emptyWorld.fs.active vaultPlace)).backup ∈ [backupName 0] := by
    show autoBackupName vault.vaultId vault.generation.toNat ∈ _
    rw [hid, hdrawn.generation_eq]
    exact List.mem_singleton_self _
  obtain ⟨hguarded, hlisted⟩ := hsteps.shelf hbackup
    (fun d hdir => absurd ((bare_lookup _ _).symm.trans hdir) nofun)
    fun d name hdir => absurd ((bare_lookup _ _).symm.trans hdir) nofun
  exact ⟨saved, w, hrun, horderly, horderly.holds (hdone.active.trans (congrArg Slot.holds hcontent)),
    hguarded, hlisted, nofun⟩

section Moves

variable {w : World} {names : List Bytes} {copies : List (Bytes × Bytes)} {n k : UInt8}
  {generation : UInt64} {name : Bytes}

/-- A handle on the active snapshot should be saved. -/
theorem World.Stage.qualified (m : UInt8) (hmax : generation.toNat ≠ 2 ^ 64 - 1) (hpos : generation ≠ 0)
    (h : w.Stage vaultPath vaultPlace (writtenSnapshot n generation) names copies) :
    ∃ current : DiskFile Bytes, Qualifies Sodium.toy vaultPath (writeEnv m) (handleOn n generation)
      firstHeader current w.fs := by
  obtain ⟨disk, hreads, hid⟩ := writtenSnapshot_reads n generation
  have h' : w.Stage (handleOn n generation).path vaultPlace (writtenSnapshot n generation) names copies := h
  exact h'.qualifies rfl firstHeader_usable (writeEnv_granted m) (handleOn_limits n hmax) hpos hreads rfl
    hid

/-- Its save writes the next generation. -/
theorem World.Stage.write (m : UInt8) (kept : List (Bytes × Bytes))
    (hmax : generation.toNat ≠ 2 ^ 64 - 1) (hpos : generation ≠ 0)
    (h : w.Stage vaultPath vaultPlace (writtenSnapshot n generation) names copies)
    (hfree : backupName generation.toNat ∉ names ∨
      (backupName generation.toNat, writtenSnapshot n generation) ∈ copies)
    (hkept : ∀ p ∈ kept, p ∈ copies ∧ ∀ g < generation.toNat, p.1 ≠ backupName g) :
    ∃ r w', Sem.Run (undisturbed 0)
      (pvStoreSave Sodium.toy plainHost (writeEnv m) (handleOn n generation) firstHeader 20) w
        (.ret (.ok, r)) w' ∧
      w'.Stage vaultPath vaultPlace (writtenSnapshot m (generation + 1))
        (backupName generation.toNat :: names)
        ((backupName generation.toNat, writtenSnapshot n generation) :: kept) := by
  obtain ⟨current, hq⟩ := h.qualified m hmax hpos
  have h' : w.Stage (handleOn n generation).path vaultPlace (writtenSnapshot n generation) names copies := h
  obtain ⟨⟨status, r⟩, w', hrun, rfl, hstage⟩ := h'.saves (c := 0) plainHost Sodium.toy_injective
    Sodium.toy_documented hq (show 20 ≠ 0 by decide) (by decide) hfree hkept
  rw [sealVault_handleOn n m hmax] at hstage
  exact ⟨r, w', hrun, hstage⟩

/-- The path of a copy leads into `backups`. -/
theorem backupPath_at {fs : Fs} {d : Nat}
    (hsplit : splitParentAndName (backupPath name) = .ok ([0x2f] ++ backupsName, name))
    (hdir : fs.lookup vaultPlace.dir backupsName = some (.dir d)) : fs.At (backupPath name) ⟨d, name⟩ := by
  refine ⟨[0x2f] ++ backupsName, hsplit, ?_⟩
  show fs.walk 0 [backupsName] = some d
  simp only [Fs.walk]
  rw [show fs.lookup 0 backupsName = some (.dir d) from hdir]

/-- A copy is restored. -/
theorem World.Stage.rewind (suffix : UInt32) {generation' : UInt64}
    (h : w.Stage vaultPath vaultPlace (writtenSnapshot n generation) names copies)
    (hmem : (name, writtenSnapshot k generation') ∈ copies)
    (hsplit : splitParentAndName (backupPath name) = .ok ([0x2f] ++ backupsName, name))
    (hfree : preRestoreName 0 suffix ∉ names) :
    ∃ w', Sem.Run (undisturbed 0) (pvStoreRestore Sodium.toy plainHost ⟨0, suffix⟩ vaultPath
        (backupPath name) (writtenSnapshot k generation')) w (.ret .ok) w' ∧
      w'.Stage vaultPath vaultPlace (writtenSnapshot k generation') (preRestoreName 0 suffix :: names)
        ((preRestoreName 0 suffix, writtenSnapshot n generation) :: copies) := by
  obtain ⟨disk, hreads, hid⟩ := writtenSnapshot_reads k generation'
  obtain ⟨other, hreads', hid'⟩ := writtenSnapshot_reads n generation
  exact h.restores (c := 0) plainHost ⟨0, suffix⟩ (by decide) hmem (fun d hdir => backupPath_at hsplit hdir)
    hreads hreads' (hid'.trans hid.symm) hfree

end Moves

/-! ## The law -/

section Law

variable {Hash : Type} {so : Sodium Hash} {c : Nat} {path : Bytes} {w : World} [DecidableEq Hash]
  {env : SaveEnv} {vault : Vault Hash} {header : FileHeader} {current : DiskFile Hash}

/-- **When a save of a vault with a history succeeds.** After any number of saves, restores and
attempts to make the vault again, a save of a handle on the active snapshot returns, and it returns
`PV_OK` just if its copy has a place. Another snapshot under the name of the copy makes it fail with
`PV_ERR_EXISTS`. -/
theorem save_succeeds_iff_backup_clear (hinj : Function.Injective so.generichash)
    (hso : so.Documented) (htimeline : Timeline so c path w) (host : Host) {retention : Nat}
    (hretention : retention ≠ 0) (hq : Qualifies so path env vault header current w.fs) :
    (∃ r w', Sem.Run (undisturbed c) (pvStoreSave so host env vault header retention) w (.ret r) w') ∧
    ∀ r w', Sem.Run (undisturbed c) (pvStoreSave so host env vault header retention) w (.ret r) w' →
      (r.1 = .ok ↔ w.fs.BackupClear so path vault current) ∧
      ∀ location d existing, w.fs.At path location →
        w.fs.lookup location.dir backupsName = some (.dir d) →
        w.fs.Shows so d (autoBackupName vault.vaultId vault.generation.toNat) existing →
        existing.hash ≠ current.hash → r.1 = .errExists := by
  obtain ⟨-, location, h⟩ := htimeline.orderly hinj
  refine ⟨?_, fun r w' hrun => ?_⟩
  · obtain rfl := hq.path_eq
    exact h.returns hinj host env header hq.dirty hretention
  · obtain ⟨hok, htaken⟩ := hq.saves hinj hso h hretention hrun
    refine ⟨hok, fun location' d existing hat => ?_⟩
    rw [hat.unique h.settled.leadsTo.at]
    exact htaken d existing

end Law

/-- The vault is made and saved, and its first snapshot is restored. -/
theorem restoredStage : ∃ saved r₂ w₁ w₂ w₃,
    Sem.Run (undisturbed 0) (pvStoreCreate Sodium.toy plainHost firstEnv vaultPath [0x61] firstKey)
      emptyWorld (.ret (.ok, saved)) w₁ ∧
    Sem.Run (undisturbed 0)
      (pvStoreSave Sodium.toy plainHost (writeEnv 2) (handleOn 1 1) firstHeader 20) w₁
      (.ret (.ok, r₂)) w₂ ∧
    Sem.Run (undisturbed 0) (pvStoreRestore Sodium.toy plainHost ⟨0, 1⟩ vaultPath
      (backupPath (backupName 1)) (writtenSnapshot 1 1)) w₂ (.ret .ok) w₃ ∧
    w₃.Stage vaultPath vaultPlace (writtenSnapshot 1 1)
      [preRestoreName 0 1, backupName 1, backupName 0]
      [(preRestoreName 0 1, writtenSnapshot 2 2), (backupName 1, writtenSnapshot 1 1)] := by
  obtain ⟨saved, w₁, hrun₁, h₁⟩ := firstStage
  obtain ⟨r₂, w₂, hrun₂, h₂⟩ := h₁.write 2 [] (by decide) (by decide) (.inl (by decide +kernel)) nofun
  obtain ⟨w₃, hrun₃, h₃⟩ := h₂.rewind 1 (.head _) (by decide +kernel) (by decide +kernel)
  exact ⟨saved, r₂, w₁, w₂, w₃, hrun₁, hrun₂, hrun₃, h₃⟩

/-- The theorem at a save after a restore, when the name of the copy is that of the very copy. -/
theorem save_succeeds_iff_backup_clear_restored : ∃ w₂ w₃ current, Timeline Sodium.toy 0 vaultPath w₂ ∧
    Sem.Run (undisturbed 0) (pvStoreRestore Sodium.toy plainHost ⟨0, 1⟩ vaultPath
      (backupPath (backupName 1)) (writtenSnapshot 1 1)) w₂ (.ret .ok) w₃ ∧
    Qualifies Sodium.toy vaultPath (writeEnv 3) (handleOn 1 1) firstHeader current w₃.fs ∧
    ∃ r w₄, Sem.Run (undisturbed 0)
      (pvStoreSave Sodium.toy plainHost (writeEnv 3) (handleOn 1 1) firstHeader 20) w₃ (.ret r) w₄ ∧
        r.1 = .ok := by
  obtain ⟨saved, r₂, w₁, w₂, w₃, hrun₁, hrun₂, hrun₃, h₃⟩ := restoredStage
  have htimeline : Timeline Sodium.toy 0 vaultPath w₂ := .save (.create emptyWorld_unused hrun₁) rfl hrun₂
  obtain ⟨current, hq⟩ := h₃.qualified 3 (by decide) (by decide)
  obtain ⟨⟨r, w₄, hsave⟩, hlaw⟩ := save_succeeds_iff_backup_clear Sodium.toy_injective
    Sodium.toy_documented (htimeline.restore hrun₃) plainHost (show 20 ≠ 0 by decide) hq
  exact ⟨w₂, w₃, current, htimeline, hrun₃, hq, r, w₄, hsave,
    (hlaw r w₄ hsave).1.mpr (h₃.backupClear hq (by decide) (.inr (.tail _ (.head _))))⟩

/-- **A restored vault that cannot be saved.** The vault is made and saved; its first snapshot is
restored and saved twice; then the second snapshot, which the first restore had put aside, is
restored. A handle on it cannot be saved: the copy of its generation is that of another snapshot. -/
theorem restored_vault_unwritable : ∃ saved r₂ r₄ r₅ w₁ w₂ w₃ w₄ w₅ w₆ current,
    Sem.Run (undisturbed 0) (pvStoreCreate Sodium.toy plainHost firstEnv vaultPath [0x61] firstKey)
      emptyWorld (.ret (.ok, saved)) w₁ ∧
    Sem.Run (undisturbed 0)
      (pvStoreSave Sodium.toy plainHost (writeEnv 2) (handleOn 1 1) firstHeader 20) w₁
      (.ret (.ok, r₂)) w₂ ∧
    Sem.Run (undisturbed 0) (pvStoreRestore Sodium.toy plainHost ⟨0, 1⟩ vaultPath
      (backupPath (backupName 1)) (writtenSnapshot 1 1)) w₂ (.ret .ok) w₃ ∧
    Sem.Run (undisturbed 0)
      (pvStoreSave Sodium.toy plainHost (writeEnv 3) (handleOn 1 1) firstHeader 20) w₃
      (.ret (.ok, r₄)) w₄ ∧
    Sem.Run (undisturbed 0)
      (pvStoreSave Sodium.toy plainHost (writeEnv 4) (handleOn 3 2) firstHeader 20) w₄
      (.ret (.ok, r₅)) w₅ ∧
    Sem.Run (undisturbed 0) (pvStoreRestore Sodium.toy plainHost ⟨0, 2⟩ vaultPath
      (backupPath (preRestoreName 0 1)) (writtenSnapshot 2 2)) w₅ (.ret .ok) w₆ ∧
    Qualifies Sodium.toy vaultPath (writeEnv 5) (handleOn 2 2) firstHeader current w₆.fs ∧
    (∃ r w', Sem.Run (undisturbed 0)
      (pvStoreSave Sodium.toy plainHost (writeEnv 5) (handleOn 2 2) firstHeader 20) w₆ (.ret r) w') ∧
    ∀ r w', Sem.Run (undisturbed 0)
      (pvStoreSave Sodium.toy plainHost (writeEnv 5) (handleOn 2 2) firstHeader 20) w₆ (.ret r) w' →
        r.1 = .errExists := by
  -- What the first restore puts aside outlives both saves.
  have haside : ∀ {copies : List (Bytes × Bytes)} {generation : Nat},
      (preRestoreName 0 1, writtenSnapshot 2 2) ∈ copies → generation ≤ 2 →
      ∀ p ∈ [(preRestoreName 0 1, writtenSnapshot 2 2)],
        p ∈ copies ∧ ∀ g < generation, p.1 ≠ backupName g := by
    intro copies generation hmem hle p hp
    rw [List.mem_singleton.mp hp]
    have hname : ∀ g < 2, preRestoreName 0 1 ≠ backupName g := by decide +kernel
    exact ⟨hmem, fun g hlt => hname g (Nat.lt_of_lt_of_le hlt hle)⟩
  obtain ⟨saved, r₂, w₁, w₂, w₃, hrun₁, hrun₂, hrun₃, h₃⟩ := restoredStage
  obtain ⟨r₄, w₄, hrun₄, h₄⟩ := h₃.write 3 _ (by decide) (by decide) (.inr (.tail _ (.head _)))
    (haside (.head _) (by decide))
  obtain ⟨r₅, w₅, hrun₅, h₅⟩ := h₄.write 4 _ (by decide) (by decide) (.inl (by decide +kernel))
    (haside (.tail _ (.head _)) (by decide))
  obtain ⟨w₆, hrun₆, h₆⟩ := h₅.rewind 2 (.tail _ (.head _)) (by decide +kernel) (by decide +kernel)
  obtain ⟨current, hq⟩ := h₆.qualified 5 (by decide) (by decide)
  refine ⟨saved, r₂, r₄, r₅, w₁, w₂, w₃, w₄, w₅, w₆, current, hrun₁, hrun₂, hrun₃, hrun₄, hrun₅, hrun₆,
    hq, ?_, fun r w' hrun => ?_⟩
  · exact h₆.orderly.returns Sodium.toy_injective plainHost _ _ hq.dirty (by decide)
  -- The name of the copy shows the other snapshot of the second generation.
  · obtain ⟨-, d, hdir, hholds⟩ := h₆.kept (backupName 2, writtenSnapshot 3 2) (.tail _ (.head _))
    obtain ⟨disk, hreads, -⟩ := writtenSnapshot_reads 3 2
    obtain ⟨st, -, hshows⟩ := hholds.shows hreads
    refine (hq.saves Sodium.toy_injective Sodium.toy_documented h₆.orderly (by decide) hrun).2 d _ hdir
      hshows fun hsame => ?_
    have hbytes : writtenSnapshot 3 2 = writtenSnapshot 2 2 :=
      hreads.hash_eq.symm.trans (hsame.trans hq.hash_eq)
    exact writtenSnapshot_ne (by decide +kernel) 2 2 hbytes

end PVault
