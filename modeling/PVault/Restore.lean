import PVault.Save

/-!
# Restoring a snapshot (`src/store.c`)

`pv_store_restore` makes a backup the active file again. Under the lock it checks that the
active file, if there is one, belongs to the same vault, copies it into `backups` under a
`pre-restore-` name, gives the backup the name of the vault and reads it back.

* `restoreLocked_spec` — the backup is installed or nothing is, in steps of its `Plan` only.
-/

namespace PVault

open Binary Conc

/-! ## The programs -/

/-- What names the copy of the file that is replaced. -/
structure RestoreEnv where
  /-- `pv_now_ms` -/
  now : Int64
  /-- `randombytes_buf` -/
  suffix : UInt32

section Programs

variable {Hash : Type} (so : Sodium Hash) (host : Host)

/-- The part of `pv_store_restore` from the last check of the location on. -/
def commitRestore (path : Bytes) (location : Location) (backup : DiskFile Hash) (noReplace : Bool) :
    FileM PvStatus := do
  let valid ← revalidateStoreLocation path location
  if valid ≠ .ok then
    return .errLocked
  else
    let status ← writeAtomicAt host location backup.headerBytes backup.ciphertext noReplace
    if status.Committed then
      let read ← readBack so host location backup.headerBytes backup.ciphertext
      let valid ← revalidateStoreLocation path location
      return if status = .errDurability ∨ read.isNone = true ∨ valid ≠ .ok then .errDurability else .ok
    else
      return status

/-- The copy of the active file before it is replaced. -/
def copyReplaced (env : RestoreEnv) (location : Location) : FileM PvStatus := do
  match ← makePrivateDirectoryAt location.dir backupsName with
  | .error status => return status
  | .ok d =>
    let status ← copyFileExclusiveAt host location.dir location.name d
      (preRestoreName env.now.toInt env.suffix)
    let _ ← sys .close
    return status

/-- The part of `pv_store_restore` under the lock. -/
def restoreLocked (env : RestoreEnv) (path : Bytes) (backup : DiskFile Hash) (location : Location) :
    FileM PvStatus := do
  match ← pathEntryExistsAt location.dir location.name with
  | .error status => return status
  | .ok false => commitRestore so host path location backup true
  | .ok true =>
    match ← readDiskFileAt so host location.dir location.name with
    | .error status =>
      return if status = .errFormat ∨ status = .errUnsupported then .errExists else status
    | .ok active =>
      if active.header.vaultId ≠ backup.header.vaultId then
        return .errAuth
      else
        let status ← copyReplaced host env location
        if status ≠ .ok then return status else commitRestore so host path location backup false

end Programs

/-! ## Its plan -/

section Specs

variable {Hash : Type} {so : Sodium Hash} {host : Host} {faults : Bool} {G : Fs → Fs → Prop}
  {fs : Fs} {env : RestoreEnv} {path : Bytes} {location : Location} {backup : DiskFile Hash}

/-- **What a restore sets out to do**, when the name of the vault shows `old`: only a snapshot
of the same vault may be replaced, and no backup is removed. -/
def restorePlan (so : Sodium Hash) (env : RestoreEnv) (location : Location) (backup : DiskFile Hash)
    (old : Slot) : Plan where
  location := location
  old := old
  base data := ∃ active : DiskFile Hash, active.Reads so data ∧
    active.header.vaultId = backup.header.vaultId
  backup := preRestoreName env.now.toInt env.suffix
  content := backup.bytes
  prunes _ := False
  backup_snapshot := preRestoreName_snapshot _ _
  backup_stays := not_false
  prunes_snapshot _ := False.elim

/-- When a restore can go through. -/
def Fs.Restorable (so : Sodium Hash) (plan : Plan) (backup : DiskFile Hash) (fs : Fs) : Prop :=
  fs.lookup plan.location.dir plan.location.name = none ∨
    (∃ active, fs.Shows so plan.location.dir plan.location.name active ∧
      active.header.vaultId = backup.header.vaultId) ∧
    fs.CanHost plan.location.dir backupsName ∧
    ∀ d, fs.lookup plan.location.dir backupsName = some (.dir d) → fs.lookup d plan.backup = none

/-- What `pv_store_restore` may have done under the lock. -/
structure RestoreResult (so : Sodium Hash) (faults : Bool) (plan : Plan) (path : Bytes)
    (backup : DiskFile Hash) (fs : Fs) (status : PvStatus) (fs' : Fs) : Prop where
  steps : plan.Steps fs fs'
  refused : ¬status.Committed → fs'.lookup plan.location.dir plan.location.name =
    fs.lookup plan.location.dir plan.location.name
  active : status.Committed → fs'.active plan.location = .holds plan.content
  replaced : status.Committed → fs.lookup plan.location.dir plan.location.name = none ∨
    ∃ data, fs.active plan.location = .holds data ∧ plan.base data ∧ plan.Copied fs' data
  noScratch : faults = false → fs.NoScratch plan.location → fs.LeadsTo path plan.location →
    plan.location.name.length + 13 < pathMax → fs'.NoScratch plan.location
  /-- without failing calls, the backup of a vault is restored over no file, or over a file of
  the same vault that can be copied -/
  clean : faults = false → fs.NoScratch plan.location → fs.LeadsTo path plan.location →
    plan.location.name.length + 13 < pathMax →
    fs.Restorable so plan backup → status = .ok

variable {plan : Plan}

/-- The commit of a restore and what follows it. -/
theorem commitRestore_spec [DecidableEq Hash] (plan : Plan) {fs₁ : Fs} {noReplace : Bool}
    (hreads : backup.Reads so backup.bytes) (hcontent : plan.content = backup.bytes)
    (htidy : fs.Tidy plan.location) (hold : plan.old = fs.active plan.location)
    (hsteps : plan.Steps fs fs₁)
    (hlook : fs₁.lookup plan.location.dir plan.location.name =
      fs.lookup plan.location.dir plan.location.name)
    (hreplace : noReplace = false → ∃ data, plan.old = .holds data ∧ plan.base data ∧
      fs₁.active plan.location = .holds data ∧ plan.Copied fs₁ data)
    (hnone : faults = false → fs.NoScratch plan.location → fs₁.NoScratch plan.location)
    (hcan : faults = false → fs.Restorable so plan backup →
      noReplace = false ∨ fs.lookup plan.location.dir plan.location.name = none)
    (hG : ∀ a b, plan.Step a b → G a b) :
    (files faults Alone G).wp (commitRestore so host path plan.location backup noReplace)
      (RestoreResult so faults plan path backup fs) fs₁ := by
  have hrefl : ∀ fs, G fs fs := fun fs => hG fs fs (Plan.Step.refl fs)
  have htidy₁ := hsteps.tidy htidy
  refine Sem.wp_then (revalidateStoreLocation_spec hrefl alone_refl alone_trans) ?_
  rintro valid fs₂ ⟨hrely, hvalid⟩
  obtain rfl : fs₂ = fs₁ := hrely
  split
  · next hbad =>
    exact ⟨hsteps, fun _ => hlook, fun h => absurd h (show ¬PvStatus.errLocked.Committed by decide),
      fun h => absurd h (show ¬PvStatus.errLocked.Committed by decide), fun hfalse h _ _ => hnone hfalse h,
      fun hfalse _ hleads _ _ => absurd (hvalid hfalse (fun _ h => h) (hsteps.leadsTo hleads)) hbad⟩
  refine Sem.wp_then (writeActive_spec hcontent hreads.ciphertext_ne htidy₁ hreplace
    (fun hunbound => ?_) hG) ?_
  · rw [hold, Fs.active, Fs.slot, ← hlook, hunbound]
  intro status fs₃ hactive
  have hsteps₃ : plan.Steps fs fs₃ := hsteps.tail hactive.step
  have hclean : faults = false → fs.NoScratch plan.location → fs.LeadsTo path plan.location →
      plan.location.name.length + 13 < pathMax → fs₃.NoScratch plan.location ∧
        (noReplace = false ∨ fs.lookup plan.location.dir plan.location.name = none → status = .ok) := by
    intro hfalse h hleads hshort
    obtain ⟨-, dir, -, -, hdir, -⟩ := hsteps.leadsTo hleads
    rw [← hlook]
    have hroomy : plan.Roomy host fs₂ := (hnone hfalse h).roomy
    exact (hactive.clean hfalse ⟨(List.getElem?_eq_some_iff.mp hdir).1, hshort, hroomy.1⟩).imp_left
      fun hkeeps => hkeeps (hnone hfalse h)
  split
  · next hcommitted =>
    obtain ⟨hunbound, hholds⟩ := hactive.committed hcommitted
    have hshown : fs₃.active plan.location = .holds plan.content := Fs.HoldsPrivate.active hholds
    have hcopied : fs.lookup plan.location.dir plan.location.name = none ∨
        ∃ data, fs.active plan.location = .holds data ∧ plan.base data ∧ plan.Copied fs₃ data := by
      cases hno : noReplace with
      | true => exact .inl (hlook.symm.trans (hunbound hno))
      | false =>
        obtain ⟨data, hdata, hbase, -, hcopied⟩ := hreplace hno
        exact .inr ⟨data, hold.symm.trans hdata, hbase, hactive.step.copied htidy₁ hcopied⟩
    refine Sem.wp_then (readBack_spec hrefl hholds) ?_
    rintro read fs₄ ⟨rfl, -, hread⟩
    refine Sem.wp_then (revalidateStoreLocation_spec hrefl alone_refl alone_trans) ?_
    rintro valid fs₅ ⟨hrely, hvalid₅⟩
    obtain rfl : fs₅ = fs₄ := hrely
    refine ⟨hsteps₃, fun hbad => absurd ?_ hbad, fun _ => hshown, fun _ => hcopied,
      fun hfalse h hleads hshort => (hclean hfalse h hleads hshort).1,
      fun hfalse h hleads hshort hres => if_neg ?_⟩
    · split
      · exact .inr rfl
      · exact .inl rfl
    · rintro (hbad | hbad | hbad)
      · rw [(hclean hfalse h hleads hshort).2 (hcan hfalse hres)] at hbad
        cases hbad
      · exact hread hfalse backup (hcontent ▸ hreads) rfl rfl (Option.isNone_iff_eq_none.mp hbad)
      · exact hbad (hvalid₅ hfalse (fun _ h => h) (hsteps₃.leadsTo hleads))
  · next hbad =>
    exact ⟨hsteps₃, fun _ => (hactive.refused hbad).lookup_eq.trans hlook, fun h => absurd h hbad,
      fun h => absurd h hbad, fun hfalse h hleads hshort => (hclean hfalse h hleads hshort).1,
      fun hfalse h hleads hshort hres => (hclean hfalse h hleads hshort).2 (hcan hfalse hres)⟩

theorem length_preRestoreName (now : Int) (suffix : UInt32) : (preRestoreName now suffix).length = 46 := by
  have hsigned : (signedDecimal now).length = 20 := by
    rw [signedDecimal]
    split <;> simp
  simp [preRestoreName, preRestoreStart, snapshotExtension, hsigned]

/-- What comes of the copy of the file that a restore replaces. -/
structure ReplacedCopy (so : Sodium Hash) (faults : Bool) (plan : Plan) (backup : DiskFile Hash)
    (data : Bytes) (fs : Fs) (status : PvStatus) (fs' : Fs) : Prop where
  steps : plan.Steps fs fs'
  lookup_eq : fs'.lookup plan.location.dir plan.location.name =
    fs.lookup plan.location.dir plan.location.name
  failed : status ≠ .ok → ¬status.Committed
  copied : status = .ok → plan.Copied fs' data
  noScratch : faults = false → fs.NoScratch plan.location → fs'.NoScratch plan.location
  clean : faults = false → fs.NoScratch plan.location → fs.Restorable so plan backup → status = .ok

theorem copyReplaced_spec (plan : Plan) (backup : DiskFile Hash) {active : DiskFile Hash}
    (hshows : fs.Shows so plan.location.dir plan.location.name active)
    (hold : plan.old = fs.active plan.location) (hbase : plan.base active.bytes)
    (hbackup : plan.backup = preRestoreName env.now.toInt env.suffix) (htidy : fs.Tidy plan.location)
    (hG : ∀ a b, plan.Step a b → G a b) :
    (files faults Alone G).wp (copyReplaced host env plan.location)
      (ReplacedCopy so faults plan backup active.bytes fs) fs := by
  have hrefl : ∀ fs, G fs fs := fun fs => hG fs fs (Plan.Step.refl fs)
  have hdata : fs.active plan.location = .holds active.bytes := hshows.slot_eq
  obtain ⟨i, n, hlook, hn, hpriv, -⟩ := hshows
  have hbound : fs.lookup plan.location.dir plan.location.name ≠ none := by
    rw [hlook]
    exact nofun
  refine Sem.wp_then (makePrivateDirectoryAt_spec hrefl fun a b ha h => hG a b (.made ?_ h)) ?_
  · rw [ha.lookup_eq _ _ (.inl hbound)]
    exact hbound
  rintro r fs₁ ⟨hmade, hok, herr⟩
  have hstep₁ : plan.Step fs fs₁ := .made hbound hmade
  have hlook₁ := hmade.lookup_eq plan.location.dir plan.location.name (.inl hbound)
  cases r with
  | error status =>
    obtain ⟨rfl, hwhy⟩ := herr status rfl
    refine ⟨.single hstep₁, hlook₁, fun _ => show ¬PvStatus.errIo.Committed by decide, nofun,
      fun _ => hmade.noScratch, fun hfalse _ hres => ?_⟩
    rcases hres with hnone | ⟨-, hcan, -⟩
    · exact absurd hnone hbound
    · exact absurd hcan (hwhy hfalse)
  | ok d =>
  obtain ⟨-, hdir, hstat⟩ := hok d rfl
  have hne : d ≠ plan.location.dir := Fs.backups_ne hdir
  have hname : ¬Scratch plan.location d plan.backup := not_scratch_snapshot plan.backup_snapshot
  have htidy₁ := hstep₁.tidy htidy
  have hkept : fs.Kept plan.location.dir plan.location.name := htidy _ _ not_scratch_active
  have hdata₁ : fs₁.slot plan.location.dir plan.location.name = .holds active.bytes :=
    (hmade.evolves.slot_eq hkept hlook₁).2.trans hdata
  dsimp only
  rw [← hbackup]
  refine Sem.wp_then (wp_of_sure (copyFileExclusiveAt_spec (E := Scratch plan.location) host
    (fun a b hq => hG a b (.quiet hq))
    (fun suffix _ => scratch_snapshot hne plan.backup_snapshot suffix) hname (htidy₁ _ _ hname)
    (htidy₁ _ _ not_scratch_active) hdata₁
    (fun a b j hq hpub hfree => hG a b (.backup (hold.trans hdata) hbase ?_ (hfree rfl) hpub)))) ?_
  · rw [hq.lookup_eq _ _ not_scratch_backups]
    exact hdir
  rintro status fs₂ ⟨houtcome, hclean⟩
  have hpublished : faults = false → fs.NoScratch plan.location →
      PublishClean d plan.backup true fs₁ fs₂ status := by
    intro hfalse hnone
    refine hclean hfalse ⟨Fs.dir_lt hstat, ?_, (hmade.roomy hnone.roomy).2 d hdir⟩
      ⟨i, n, hlook₁.trans hlook, hmade.inodes_eq ▸ hn, hpriv⟩
    rw [hbackup, length_preRestoreName]
    decide
  have hstep₂ : plan.Step fs₁ fs₂ ∧ fs₂.lookup plan.location.dir plan.location.name =
      fs₁.lookup plan.location.dir plan.location.name ∧ (status ≠ .ok → ¬status.Committed) ∧
      (status = .ok → plan.Copied fs₂ active.bytes) := by
    cases houtcome with
    | published h hfree hstatus =>
      refine ⟨.backup (hold.trans hdata) hbase hdir (hfree rfl) h,
        h.lookup_ne _ _ not_scratch_active fun heq => hne (Prod.mk.inj heq).1.symm, fun hbad => ?_,
        fun _ => ⟨d, h.evolves.dir_mono _ _ _ hdir, h.slot_eq⟩⟩
      rcases hstatus with rfl | rfl
      · exact absurd rfl hbad
      · decide
    | nothing h hstatus =>
      refine ⟨.quiet h, h.lookup_eq _ _ not_scratch_active, fun _ => ?_, fun hgood => ?_⟩
      · rcases hstatus with rfl | rfl | ⟨-, rfl⟩ <;> decide
      · rw [hgood] at hstatus
        rcases hstatus with h | h | ⟨-, h⟩ <;> cases h
  obtain ⟨hstep₂, hlook₂, hfailed, hcopied⟩ := hstep₂
  refine wp_close hrefl fun fs₃ _ hrely _ => ?_
  obtain rfl : fs₃ = fs₂ := hrely
  refine ⟨(Relation.ReflTransGen.single hstep₁).tail hstep₂, hlook₂.trans hlook₁, hfailed, hcopied,
    fun hfalse hnone => (hpublished hfalse hnone).noScratch hname (hmade.noScratch hnone),
    fun hfalse hnone hres => (hpublished hfalse hnone).ok (.inl ?_)⟩
  rcases hres with hunbound | ⟨-, -, hfree⟩
  · exact absurd hunbound hbound
  · rcases hmade.lookup_backup hdir plan.backup with ⟨hdir₀, hsame⟩ | hnew
    · exact hsame.trans (hfree d hdir₀)
    · exact hnew

/-- **Restoring under the lock**, whatever the calls answer: the backup is installed, with a copy
of what it replaces in `backups`, or the active file stays. -/
theorem restoreLocked_spec [DecidableEq Hash] (hreads : backup.Reads so backup.bytes)
    (htidy : fs.Tidy location)
    (hG : ∀ a b, (restorePlan so env location backup (fs.active location)).Step a b → G a b) :
    (files faults Alone G).wp (restoreLocked so host env path backup location)
      (RestoreResult so faults (restorePlan so env location backup (fs.active location)) path backup
        fs) fs := by
  have hrefl : ∀ fs, G fs fs := fun fs => hG fs fs (Plan.Step.refl fs)
  -- The exits before anything is changed.
  have hexit : ∀ status : PvStatus, ¬status.Committed → (faults = false →
      ¬fs.Restorable so (restorePlan so env location backup (fs.active location)) backup) →
      RestoreResult so faults (restorePlan so env location backup (fs.active location)) path backup
        fs status fs :=
    fun status hbad hwhy => ⟨.refl, fun _ => rfl, fun h => absurd h hbad, fun h => absurd h hbad,
      fun _ h _ _ => h, fun hfalse _ _ _ hres => absurd hres (hwhy hfalse)⟩
  refine Sem.wp_then (pathEntryExistsAt_spec hrefl) ?_
  rintro r fs₁ ⟨rfl, herr, habsent, hpresent⟩
  have hshown : faults = false → ∀ disk : DiskFile Hash,
      fs₁.Shows so location.dir location.name disk → r = .ok true :=
    fun hfalse disk ⟨i, n, hlook, hn, _⟩ => hpresent hfalse i n hlook hn
  cases r with
  | error status =>
    obtain rfl := herr status rfl
    refine hexit _ (by decide) fun hfalse hres => ?_
    rcases hres with hnone | ⟨⟨active, hshows, -⟩, -⟩
    · exact absurd (habsent hfalse hnone) nofun
    · exact absurd (hshown hfalse active hshows) nofun
  | ok found =>
  cases found with
  | false =>
    refine commitRestore_spec (restorePlan so env location backup (fs₁.active location)) hreads rfl
      htidy rfl .refl rfl nofun (fun _ h => h) (fun hfalse hres => .inr ?_) hG
    rcases hres with hnone | ⟨⟨active, hshows, -⟩, -⟩
    · exact hnone
    · exact absurd (hshown hfalse active hshows) nofun
  | true =>
  refine Sem.wp_then (readDiskFileAt_alone so host hrefl) ?_
  rintro r fs₂ ⟨rfl, hok, hbad⟩
  have hbound : faults = false → fs₂.lookup location.dir location.name ≠ none :=
    fun hfalse h => absurd (habsent hfalse h) nofun
  cases r with
  | error status =>
    obtain ⟨hrefused, hwhy⟩ := hbad status rfl
    refine hexit _ ?_ fun hfalse hres => ?_
    · split
      · decide
      · exact hrefused
    · rcases hres with hnone | ⟨⟨active, hshows, -⟩, -⟩
      · exact hbound hfalse hnone
      · exact hwhy hfalse active hshows
  | ok active =>
  have hshows := hok active rfl
  dsimp only
  split
  · next hforeign =>
    refine hexit _ (by decide) fun hfalse hres => ?_
    rcases hres with hnone | ⟨⟨active', hshows', hid⟩, -⟩
    · exact hbound hfalse hnone
    · exact hforeign (hshows'.unique hshows ▸ hid)
  next hsame =>
  have hbase : (restorePlan so env location backup (fs₂.active location)).base active.bytes := by
    obtain ⟨i, n, -, -, -, hread, -⟩ := hshows
    exact ⟨active, hread.bytes_eq ▸ hread, not_not.mp hsame⟩
  refine Sem.wp_then (copyReplaced_spec (restorePlan so env location backup (fs₂.active location))
    backup hshows rfl hbase rfl htidy hG) ?_
  intro status fs₃ hcopy
  split
  · next hfail =>
    have hnever := hcopy.failed hfail
    exact ⟨hcopy.steps, fun _ => hcopy.lookup_eq, fun h => absurd h hnever, fun h => absurd h hnever,
      fun hfalse h _ _ => hcopy.noScratch hfalse h,
      fun hfalse h _ _ hres => absurd (hcopy.clean hfalse h hres) hfail⟩
  · next hgood =>
    have hcopied := hcopy.copied (not_not.mp hgood)
    have hdata : fs₂.active location = .holds active.bytes := hshows.slot_eq
    refine commitRestore_spec (restorePlan so env location backup (fs₂.active location)) hreads rfl
      htidy rfl hcopy.steps hcopy.lookup_eq (fun _ => ⟨active.bytes, hdata, hbase, ?_, hcopied⟩)
      hcopy.noScratch (fun _ _ => .inl rfl) hG
    exact (hcopy.steps.evolves.slot_eq (htidy _ _ not_scratch_active) hcopy.lookup_eq).2.trans hdata

end Specs

end PVault
