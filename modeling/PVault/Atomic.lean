import PVault.Copies
import PVault.Store

/-!
# All or nothing (`src/store.c`)

What the caller of an operation may conclude from its status, whatever calls have failed on the
way. A file system may be in any state when the operation starts: `Fs.Finished` only says that
names lead to files, and that none of these is still being written.

* `save_all_or_nothing` — a save or a creation that reports failure has changed neither the
  active file nor the handle; one that reports success, or doubts about durability, has done
  everything.
* `restore_installs_authenticated` — a restore installs what hashes to the expected digest, over
  nothing or over a snapshot of the same vault that it has copied, or it installs nothing.
-/

namespace PVault

open Binary Conc

/-! ## Paths -/

section Paths

variable {a b : Fs} {path : Bytes} {location : Location}

theorem Fs.Finished.tidy (h : a.Finished) (location : Location) : a.Tidy location :=
  fun d name _ => h d name

theorem Fs.At.later (h : a.At path location) (hev : Fs.Evolves a b) : b.At path location := by
  obtain ⟨parent, hsplit, hresolve⟩ := h
  exact ⟨parent, hsplit, hev.resolve_eq hresolve⟩

theorem Fs.Grows.finished {comps : List Bytes} (h : Fs.Grows comps a b) (ha : a.Finished) :
    b.Finished := by
  obtain ⟨⟨d, name, hmade⟩, -⟩ := h
  exact fun e other => hmade.kept (ha e other)

/-- The directory that holds the entry of an absolute path. -/
theorem Fs.resolve_parent {parent name : Bytes} (habs : path.head? = some 0x2f)
    (h : splitParentAndName path = .ok (parent, name)) (fs : Fs) :
    fs.resolve parent = fs.walk 0 (Fs.components (parentPath path)) := by
  by_cases hne : parentPath path = []
  · have hlt := baseName_length_lt habs
    have hzero : path.length - (baseName path).length - 1 = 0 := by
      rw [parentPath, List.take_eq_nil_iff] at hne
      rcases hne with hzero | rfl
      · exact hzero
      · cases habs
    simp only [splitParentAndName, if_neg (Nat.ne_of_lt hlt), if_pos hzero] at h
    split_ifs at h
    cases h
    rw [hne]
    rfl
  · obtain ⟨rfl, hhead⟩ := split_parentPath habs hne h
    rw [Fs.resolve, Fs.origin, if_pos hhead]

/-- Making the way to a path does not change what the path shows. -/
theorem Fs.Grows.entry_eq (habs : path.head? = some 0x2f)
    (h : Fs.Grows (Fs.components (parentPath path)) a b) : b.entry path = a.entry path := by
  rw [Fs.entry, Fs.entry]
  rcases hsplit : splitParentAndName path with _ | ⟨parent, name⟩
  · rfl
  simp only [Fs.resolve_parent habs hsplit]
  cases ha : a.walk 0 (Fs.components (parentPath path)) with
  | some d =>
    obtain rfl : b = a := h.2 (by rw [ha]; exact Option.some_ne_none d)
    rw [ha]
  | none =>
    cases hb : b.walk 0 (Fs.components (parentPath path)) with
    | none => rfl
    | some d =>
      rcases h.walk_cases hb with rfl | hempty
      · rw [ha] at hb
        cases hb
      · simp only [Fs.slot, hempty name]

end Paths

/-! ## Runs -/

section Runs

variable {faults : Bool} {c : Nat} {R G : World → World → Prop} {w w' : World} {α : Type} {a : α}
  {p : SysM α} {Q : α → World → Prop}

/-- What is proved of a program holds when it has returned. -/
theorem Neighbours.returned (hR : Neighbours c R) (hstable : ∀ a w₁ w₂, Q a w₁ → R w₁ w₂ → Q a w₂)
    (h : (system faults c R G).wp p Q w)
    (hrun : Sem.Run (system faults c R fun _ _ => True) p w (.ret a) w') : Q a w' := by
  have hrun' : Sem.Run (system faults c R G) p w (.ret a) w' :=
    hrun.sub (fun _ _ _ _ h => h) fun _ _ h => h
  exact Sem.wp_run hrun' hR.refl hR.trans hstable h

/-- The client `c` by itself; every call may fail. -/
abbrev alone (c : Nat) : Sem SysRes World := system true c (fun a b => b = a) fun _ _ => True

theorem returned_alone (h : (system true c (fun a b => b = a) G).wp p Q w)
    (hrun : Sem.Run (alone c) p w (.ret a) w') : Q a w' :=
  (neighbours_none c).returned (by rintro a w₁ w₂ hq rfl; exact hq) h hrun

/-- A program returns when no call fails. -/
theorem returns_alone (h : (system false c (fun a b => b = a) G).wp p Q w) :
    ∃ a w', Sem.Run (alone c) p w (.ret a) w' ∧ Q a w' := by
  obtain ⟨a, w', hrun, hq⟩ := Sem.exists_run (fun _ => rfl) (show ¬false = true by decide)
    (World.Step.answers false c) h
  exact ⟨a, w', hrun.sub (fun _ _ _ _ h => h.mayFail) fun _ _ h => h, hq⟩

end Runs

/-! ## Saving and creating -/

section Saving

variable {Hash : Type} {so : Sodium Hash} {c : Nat} {w w' : World}
variable {path password : Bytes} {recoveryKey : Block pvRecoveryKeyBytes}

/-- A copy of the data is in the directory `backups` beside the path. -/
def Fs.HasBackup (fs : Fs) (path name data : Bytes) : Prop :=
  ∃ location d, fs.At path location ∧ fs.lookup location.dir backupsName = some (.dir d) ∧
    fs.slot d name = .holds data

/-- **The law of `pv_store_save`**, between the file systems before and after. -/
structure SaveLaw (so : Sodium Hash) (env : SaveEnv) (vault : Vault Hash) (header : FileHeader)
    (fs : Fs) (r : PvStatus × Vault Hash × FileHeader) (fs' : Fs) : Prop where
  /-- a failure leaves the active file, the vault and the keyslots as they were -/
  refused : ¬r.1.Committed → fs'.entry vault.path = fs.entry vault.path ∧ r.2.1 = vault ∧
    r.2.2.passwordSlot = header.passwordSlot ∧ r.2.2.recoverySlot = header.recoverySlot
  /-- otherwise the next generation is active, and what it replaced is in `backups` -/
  committed : r.1.Committed → r.2.1.generation.toNat = vault.generation.toNat + 1 ∧
    ∃ replaced ciphertext, fs.entry vault.path = .holds replaced ∧
      sealVault so env (vault.stamped env.now) header = (.ok, r.2.2, ciphertext) ∧
      fs'.entry vault.path = .holds (serialized r.2.2 ++ ciphertext) ∧
      fs'.HasBackup vault.path (autoBackupName vault.vaultId vault.generation.toNat) replaced ∧
      (r.1 = .ok → r.2.1.sourceHash = so.generichash (serialized r.2.2 ++ ciphertext) ∧
        r.2.1.dirty = false)

/-- **The law of `pv_store_create`.** -/
structure CreateLaw (so : Sodium Hash) (env : CreateEnv) (path password : Bytes)
    (recoveryKey : Block pvRecoveryKeyBytes) (fs : Fs) (r : PvStatus × Option (Vault Hash)) (fs' : Fs) :
    Prop where
  refused : ¬r.1.Committed → fs'.entry path = fs.entry path ∧ r.2 = none
  committed : r.1.Committed → fs.entry path = .absent ∧
    ∃ vault header saved header' ciphertext, Drawn so env path password recoveryKey vault header ∧
      r.2 = some saved ∧ saved.generation = 1 ∧
      sealVault so env.save (vault.stamped env.save.now) header = (.ok, header', ciphertext) ∧
      fs'.entry path = .holds (serialized header' ++ ciphertext) ∧
      (r.1 = .ok → saved.sourceHash = so.generichash (serialized header' ++ ciphertext) ∧
        saved.dirty = false)

/-- The next generation does not wrap. -/
theorem stamped_generation {vault : Vault Hash} (now : Int64)
    (h : vault.generation.toNat ≠ 2 ^ 64 - 1) :
    (vault.stamped now).generation.toNat = vault.generation.toNat + 1 := by
  have hlt := vault.generation.toNat_lt
  rw [Vault.stamped, UInt64.toNat_add]
  exact Nat.mod_eq_of_lt (by show vault.generation.toNat + 1 < 2 ^ 64; omega)

section Done

variable {env : SaveEnv} {vault : Vault Hash} {header : FileHeader} {createOnly : Bool}
  {location : Location} {old : Slot} {fs fs' : Fs} {r : PvStatus × Vault Hash × FileHeader}

/-- What a save that committed has written. -/
theorem SaveDone.sealed (h : SaveDone so env (savePlan so env location vault header createOnly old)
    vault header createOnly fs r fs') : ∃ ciphertext,
      sealVault so env (vault.stamped env.now) header = (.ok, r.2.2, ciphertext) ∧
      fs'.active location = .holds (serialized r.2.2 ++ ciphertext) ∧
      r.2.1.generation = (vault.stamped env.now).generation ∧
      (r.1 = .ok → r.2.1.sourceHash = so.generichash (serialized r.2.2 ++ ciphertext) ∧
        r.2.1.dirty = false) := by
  obtain ⟨ciphertext, hseal⟩ := h.sealed_eq
  have hcontent : (savePlan so env location vault header createOnly old).content =
      serialized r.2.2 ++ ciphertext := by
    rw [savePlan, hseal, sealedBytes]
  have hactive := h.active
  have hvault := h.vault_eq
  rw [hcontent] at hactive hvault
  refine ⟨ciphertext, hseal, hactive, ?_, fun hok => ?_⟩
  · rcases hvault with hvault | ⟨-, hvault⟩
    · rw [hvault]
    · rw [hvault]
  · rcases hvault with hvault | ⟨hwarn, -⟩
    · rw [hvault]
      exact ⟨rfl, rfl⟩
    · rw [hok] at hwarn
      cases hwarn

end Done

theorem SaveLaw.of_outcome (host : Host) {env : SaveEnv} {vault : Vault Hash} {header : FileHeader}
    {r : PvStatus × Vault Hash × FileHeader} (hfin : w.fs.Finished)
    (h : LockOutcome true c (fun a b => b = a) vault.path (fun status => (status, vault, header))
      (SaveWork so host true env vault header) w r w') : SaveLaw so env vault header w.fs r w'.fs := by
  rcases h.alone with ⟨status, rfl, rfl, hbad, -⟩ | ⟨location, hleads, hwork, -⟩
  · exact ⟨fun _ => ⟨rfl, rfl, rfl, rfl⟩, fun hcommitted => absurd hcommitted hbad⟩
  have hev : Fs.Evolves w.fs w'.fs := hwork.steps.evolves
  have hat := hleads.at
  have hat' := hat.later hev
  refine ⟨fun hbad => ?_, fun hcommitted => ?_⟩
  · obtain ⟨hvault, hprepared⟩ := hwork.refused hbad
    obtain ⟨nonce, len, hheader⟩ := hwork.header_eq
    refine ⟨?_, hvault, by rw [hheader], by rw [hheader]⟩
    rw [hat'.entry_eq, hat.entry_eq]
    exact (hev.slot_eq (hfin _ _) hprepared.lookup_eq).2
  · have hdone := hwork.committed hcommitted
    obtain ⟨replaced, hactive, -, d, hdir, hcopy⟩ := hdone.replaced rfl
    obtain ⟨ciphertext, hseal, hnew, hgeneration, hok⟩ := hdone.sealed
    rw [hgeneration, stamped_generation env.now (hwork.bounded hcommitted)]
    refine ⟨rfl, replaced, ciphertext, hat.entry_eq.trans hactive, hseal, hat'.entry_eq.trans hnew, ?_,
      hok⟩
    exact ⟨location, d, hat', hdir, hcopy⟩

theorem Drawn.generation_eq {env : CreateEnv} {vault : Vault Hash} {header : FileHeader}
    (h : Drawn so env path password recoveryKey vault header) : vault.generation = 0 := by
  have hnew := h.vault_eq
  rw [newVault] at hnew
  split at hnew
  · cases hnew
  · cases hnew
    rfl

theorem CreateLaw.of_outcome {env : CreateEnv} {r : PvStatus × Option (Vault Hash)}
    (hfin : w.fs.Finished)
    (h : LockOutcome true c (fun a b => b = a) path (fun status => (status, none))
      (CreateResult so true env path password recoveryKey) w r w') :
    CreateLaw so env path password recoveryKey w.fs r w'.fs := by
  rcases h.alone with ⟨status, rfl, rfl, hbad, -⟩ | ⟨location, hleads, hwork, -⟩
  · exact ⟨fun _ => ⟨rfl, rfl⟩, fun hcommitted => absurd hcommitted hbad⟩
  have hev : Fs.Evolves w.fs w'.fs := by
    rcases hwork.effect with hsame | ⟨vault, header, -, hsteps⟩
    · rw [hsame]
      exact Fs.Evolves.refl _
    · exact hsteps.evolves
  have hat := hleads.at
  have hat' := hat.later hev
  refine ⟨fun hbad => ?_, fun hcommitted => ?_⟩
  · obtain ⟨hnone, hlook⟩ := hwork.refused hbad
    refine ⟨?_, hnone⟩
    rw [hat'.entry_eq, hat.entry_eq]
    exact (hev.slot_eq (hfin _ _) hlook).2
  · obtain ⟨vault, header, saved, header', hdrawn, hsaved, hdone⟩ := hwork.committed hcommitted
    obtain ⟨ciphertext, hseal, hnew, hgeneration, hok⟩ := hdone.sealed
    have hfree : w.fs.lookup location.dir location.name = none := hdone.created rfl
    refine ⟨by rw [hat.entry_eq, Fs.slot, hfree], vault, header, saved, header', ciphertext, hdrawn,
      hsaved, ?_, hseal, hat'.entry_eq.trans hnew, hok⟩
    exact hgeneration.trans (by rw [Vault.stamped, hdrawn.generation_eq]; rfl)

/-- What a path shows is not changed by making the way to it. -/
theorem grown_entry (habs : path.head? = some 0x2f) {a b : Fs}
    (h : Relation.ReflTransGen (Fs.Grows (Fs.components (parentPath path))) a b) (ha : a.Finished) :
    b.Finished ∧ b.entry path = a.entry path := by
  induction h with
  | refl => exact ⟨ha, rfl⟩
  | tail _ hstep ih => exact ⟨hstep.finished ih.1, (hstep.entry_eq habs).trans ih.2⟩

theorem Roams.grown {outside : Fs → Fs → Prop} (h : Roams (fun a b => b = a) outside w w') :
    Relation.ReflTransGen outside w.fs w'.fs := by
  induction h with
  | refl => exact .refl
  | tail _ hstep ih =>
    rcases hstep with rfl | ⟨fs', hout, rfl⟩
    · exact ih
    · exact ih.tail hout

/-- A relative path is refused at once. -/
theorem pvStoreCreate_relative [DecidableEq Hash] {host : Host} {env : CreateEnv}
    (hrel : path.head? ≠ some 0x2f) :
    pvStoreCreate so host env path password recoveryKey = .ret (.errUsage, none) := by
  rw [pvStoreCreate, ensureParentDirectory, if_pos (.inl hrel)]
  rfl

/-- What stands in the way of a save: the directory, the lock or the file name, before the vault
itself is looked at. -/
structure World.Accessible (w : World) (host : Host) (path : Bytes) (location : Location)
    (plan : Plan) : Prop where
  leadsTo : w.fs.LeadsTo path location
  tidy : w.fs.Tidy location
  unlocked : ∀ l ∈ w.locks, l.location ≠ location
  short : location.name.length + 13 < pathMax
  roomy : plan.Roomy host w.fs

/-- **A save when no call fails.** -/
theorem pvStoreSave_succeeds [DecidableEq Hash] (hinj : Function.Injective so.generichash)
    {host : Host} {env : SaveEnv} {vault : Vault Hash} {header : FileHeader} {retention : Nat}
    {location : Location} {current : DiskFile Hash} (hidle : w.Idle c) (hdirty : vault.dirty = true)
    (hretention : retention ≠ 0)
    (haccess : w.Accessible host vault.path location
      (savePlan so env location vault header false (w.fs.active location)))
    (hcurrent : w.fs.Current so location vault current) (hseal : vault.Sealable so env header)
    (hpos : vault.generation ≠ 0)
    (hfree : w.fs.BackupFree so (savePlan so env location vault header false (w.fs.active location))
      vault.vaultId current) :
    (system false c (fun a b => b = a) (Acts c (fun _ _ => True) fun _ _ _ _ => True)).wp
      (pvStoreSave so host env vault header retention)
      (fun r w' => r.1 = .ok ∧ SaveWork so host false env vault header location w.fs r w'.fs ∧
        w'.Idle c) w := by
  refine Sem.wp_mono (pvStoreSave_spec (neighbours_none c) hidle hinj ?_ hdirty hretention
    (fun _ _ _ => trivial) fun _ _ _ _ _ _ _ => trivial) ?_
  · rintro w₀ w₁ location' rfl hat rfl
    rw [hat.unique haccess.leadsTo.at]
    exact haccess.tidy
  intro r w' h
  rcases h.alone with ⟨status, -, -, -, hwhy⟩ | ⟨location', hleads, hwork, hidle'⟩
  · obtain ⟨l, hl, hheld⟩ := hwhy rfl location haccess.short haccess.leadsTo
    exact absurd hheld (haccess.unlocked l hl)
  · obtain rfl := hleads.at.unique haccess.leadsTo.at
    have hclean := hwork.clean rfl haccess.roomy haccess.leadsTo haccess.short
    exact ⟨(hclean.saved rfl hseal hpos current hcurrent).1.mpr hfree, hwork, hidle'⟩

/-- A changed handle on the only file can be saved. -/
theorem emptyHandle_saved (generation : UInt64) (updated now : Int64) (hnow : 0 ≤ now)
    (hmax : generation.toNat ≠ 2 ^ 64 - 1) (hpos : generation ≠ 0) : ∃ r w',
    Sem.Run (alone 0) (pvStoreSave Sodium.toy plainHost (readyEnv now)
      (emptyHandle generation updated) backupHeader 1) ⟨onlyVault generation updated, [], []⟩ (.ret r) w' ∧
      r.1 = .ok := by
  obtain ⟨disk, hcurrent⟩ := onlyVault_current generation updated
  obtain ⟨r, w', hrun, hok, -⟩ := returns_alone (pvStoreSave_succeeds (c := 0)
    (w := ⟨onlyVault generation updated, [], []⟩) Sodium.toy_injective rfl rfl Nat.one_ne_zero
    ⟨onlyVault_leadsTo _ _, fun d name _ => onlyVault_finished _ _ d name, nofun, by decide,
      (onlyVault_noScratch _ _).roomy⟩ hcurrent (emptyHandle_sealable _ _ now hnow hmax) hpos
    (onlyVault_backupFree _ _ rfl))
  exact ⟨r, w', hrun, hok⟩

/-- What the caller of a save may conclude. -/
theorem pvStoreSave_law [DecidableEq Hash] (hinj : Function.Injective so.generichash) (host : Host)
    (hidle : w.Idle c) (hfin : w.fs.Finished) {env : SaveEnv} {vault : Vault Hash} {header : FileHeader}
    {retention : Nat} {r : PvStatus × Vault Hash × FileHeader} (hdirty : vault.dirty = true)
    (hretention : retention ≠ 0)
    (hrun : Sem.Run (alone c) (pvStoreSave so host env vault header retention) w (.ret r) w') :
    SaveLaw so env vault header w.fs r w'.fs := by
  refine .of_outcome (c := c) host hfin
    (returned_alone (G := Acts c (fun _ _ => True) fun _ _ _ _ => True) ?_ hrun)
  exact pvStoreSave_spec (neighbours_none c) hidle hinj
    (by rintro w₀ w₁ location rfl - rfl; exact hfin.tidy location) hdirty hretention
    (fun _ _ _ => trivial) fun _ _ _ _ _ _ _ => trivial

/-- **Save and create are all-or-nothing**, for every state of the directory and every outcome of
every call. -/
theorem save_all_or_nothing [DecidableEq Hash] (hinj : Function.Injective so.generichash) (host : Host)
    (hidle : w.Idle c) (hfin : w.fs.Finished) :
    (∀ env vault header retention r w', vault.dirty = true → retention ≠ 0 →
      Sem.Run (alone c) (pvStoreSave so host env vault header retention) w (.ret r) w' →
      SaveLaw so env vault header w.fs r w'.fs) ∧
    ∀ env path password recoveryKey r w',
      Sem.Run (alone c) (pvStoreCreate so host env path password recoveryKey) w (.ret r) w' →
      CreateLaw so env path password recoveryKey w.fs r w'.fs := by
  refine ⟨fun env vault header retention r w' hdirty hretention hrun => ?_,
    fun env path password recoveryKey r w' hrun => ?_⟩
  · exact pvStoreSave_law hinj host hidle hfin hdirty hretention hrun
  · by_cases habs : path.head? = some 0x2f
    · have hfin' : ∀ {w₁}, Roams (fun a b => b = a) (Fs.Grows (Fs.components (parentPath path))) w w₁ →
          w₁.fs.Finished ∧ w₁.fs.entry path = w.fs.entry path :=
        fun h => grown_entry habs h.grown hfin
      have hcreate := returned_alone (G := Acts c (Fs.Grows (Fs.components (parentPath path)))
        fun _ _ _ _ => True) (pvStoreCreate_spec (neighbours_none c) hidle hinj
          (fun w₁ h => by rintro w₂ w₃ location rfl - rfl; exact (hfin' h).1.tidy location)
          (fun _ _ h => h) (fun _ _ _ => trivial) fun _ _ _ _ _ _ _ _ _ _ => trivial) hrun
      obtain ⟨w₁, hroams, ⟨rfl, hbad, hnone⟩ | hout⟩ := hcreate
      · exact ⟨fun _ => ⟨(hfin' hroams).2, hnone⟩, fun h => absurd h hbad⟩
      · obtain ⟨hrefused, hcommitted⟩ := CreateLaw.of_outcome (hfin' hroams).1 hout
        rw [(hfin' hroams).2] at hrefused hcommitted
        exact ⟨hrefused, hcommitted⟩
    · rw [pvStoreCreate_relative habs] at hrun
      have hsame : r = (.errUsage, none) ∧ w' = w :=
        returned_alone (G := fun _ _ => True) (Q := fun r w' => r = (.errUsage, none) ∧ w' = w)
          (Sem.wp_ret.mpr ⟨rfl, rfl⟩) hrun
      obtain ⟨rfl, rfl⟩ := hsame
      refine ⟨fun _ => ⟨rfl, rfl⟩, fun h => ?_⟩
      rcases h with h | h
      · cases h
      · cases h

/-- A save that goes well: the only file is replaced by the next generation. -/
theorem save_all_or_nothing_plain : ∃ r w',
    Sem.Run (alone 0) (pvStoreSave Sodium.toy plainHost (readyEnv 5) (emptyHandle 1 0)
      backupHeader 1) ⟨onlyVault 1 0, [], []⟩ (.ret r) w' ∧ r.1 = .ok ∧
    SaveLaw Sodium.toy (readyEnv 5) (emptyHandle 1 0) backupHeader (onlyVault 1 0) r w'.fs := by
  obtain ⟨r, w', hrun, hok⟩ := emptyHandle_saved 1 0 5 (by decide) (by decide) (by decide)
  have hlaw := (save_all_or_nothing (c := 0) (w := ⟨onlyVault 1 0, [], []⟩) Sodium.toy_injective
    plainHost rfl (onlyVault_finished 1 0)).1
  exact ⟨r, w', hrun, hok, hlaw _ _ _ _ _ _ rfl Nat.one_ne_zero hrun⟩

end Saving

/-! ## Restoring -/

section Restoring

variable {Hash : Type} {so : Sodium Hash} {c : Nat} {R : World → World → Prop} {w w' : World}
variable {env : RestoreEnv} {path : Bytes}

/-- What is known about a backup that was read: it is a whole snapshot; and if nobody else changed
a file meanwhile, it is the one under its path. -/
structure BackupRead (so : Sodium Hash) (R : World → World → Prop) (path : Bytes) (w : World)
    (backup : DiskFile Hash) : Prop where
  reads : backup.Reads so backup.bytes
  shown : (∀ w₁, R w w₁ → w₁.fs = w.fs) → ∃ location, w.fs.At path location ∧
    w.fs.Shows so location.dir location.name backup

theorem readDiskFile_backup {host : Host} (hR : Neighbours c R) :
    (files true (fun a b => Seen R w a → Seen R w b) fun a b => b = a).wp (readDiskFile so host path)
      (fun r _ => (∀ disk, r = .ok disk → BackupRead so R path w disk) ∧
        ∀ status, r = .error status → ¬status.Committed ∧ True) w.fs := by
  by_cases hquiet : ∀ w₁, R w w₁ → w₁.fs = w.fs
  · refine Sem.wp_mono (readDiskFile_still so host (fun _ => rfl) (fun _ h => h)
      (fun _ _ _ h h' hs => h' (h hs)) fun fs' h => ?_) ?_
    · obtain ⟨w₁, h₁, rfl⟩ := h ⟨w, hR.refl w, rfl⟩
      exact hquiet w₁ h₁
    · rintro r fs' ⟨-, hok, herr⟩
      refine ⟨fun disk hdisk => ?_, fun status h => ⟨(herr status h).1, trivial⟩⟩
      obtain ⟨location, hat, hshows⟩ := hok disk hdisk
      refine ⟨?_, fun _ => ⟨location, hat, hshows⟩⟩
      obtain ⟨i, n, -, -, -, hreads, -⟩ := hshows
      exact hreads.bytes_eq ▸ hreads
  · refine Sem.wp_mono (readDiskFile_whole so host (fun _ => rfl) (fun _ h => h)
      fun _ _ _ h h' hs => h' (h hs)) ?_
    exact fun r _ h => ⟨fun disk hdisk => ⟨h.1 disk hdisk, fun hq => absurd hq hquiet⟩,
      fun status herr => ⟨h.2 status herr, trivial⟩⟩

/-- **The law of `pv_store_restore`** for a backup that was read, between the file systems when
the lock was taken and when it was given back. -/
structure RestoreLaw (so : Sodium Hash) (env : RestoreEnv) (backup : DiskFile Hash)
    (location : Location) (fs : Fs) (status : PvStatus) (fs' : Fs) : Prop where
  refused : ¬status.Committed → fs'.active location = fs.active location
  installed : status.Committed → fs'.active location = .holds backup.bytes
  /-- what is replaced is a snapshot of the same vault, and was copied -/
  replaced : status.Committed → fs.active location ≠ .absent → ∃ active : DiskFile Hash,
    fs.active location = .holds active.bytes ∧ active.Reads so active.bytes ∧
      active.header.vaultId = backup.header.vaultId ∧
      ∃ d, fs'.lookup location.dir backupsName = some (.dir d) ∧
        fs'.slot d (preRestoreName env.now.toInt env.suffix) = .holds active.bytes
  /-- a snapshot of another vault stays -/
  foreign : ∀ active : DiskFile Hash, fs.active location = .holds active.bytes →
    active.Reads so active.bytes → active.header.vaultId ≠ backup.header.vaultId →
    ¬status.Committed
  /-- a file that is no snapshot stays -/
  unframed : ∀ data, fs.active location = .holds data → (∀ active : DiskFile Hash,
    ¬active.Reads so data) → ¬status.Committed

theorem RestoreLaw.of_result {faults : Bool} {backup : DiskFile Hash} {location : Location}
    {fs fs' : Fs} {status : PvStatus} (htidy : fs.Tidy location)
    (h : RestoreResult so faults (restorePlan so env location backup (fs.active location)) path backup
      fs status fs') : RestoreLaw so env backup location fs status fs' := by
  have hreplaced : status.Committed → fs.active location ≠ .absent → ∃ active : DiskFile Hash,
      fs.active location = .holds active.bytes ∧ active.Reads so active.bytes ∧
        active.header.vaultId = backup.header.vaultId ∧
        ∃ d, fs'.lookup location.dir backupsName = some (.dir d) ∧
          fs'.slot d (preRestoreName env.now.toInt env.suffix) = .holds active.bytes := by
    intro hcommitted hbound
    rcases h.replaced hcommitted with hnone | ⟨data, hdata, ⟨active, hreads, hid⟩, d, hdir, hcopy⟩
    · exact absurd (show fs.slot location.dir location.name = .absent by
        rw [Fs.slot, show fs.lookup location.dir location.name = none from hnone]) hbound
    · obtain rfl := hreads.bytes_eq
      exact ⟨active, hdata, hreads, hid, d, hdir, hcopy⟩
  refine ⟨fun hbad => ?_, h.active, hreplaced, fun active hactive hreads hid hcommitted => ?_,
    fun data hdata hunframed hcommitted => ?_⟩
  · exact (h.steps.evolves.slot_eq (htidy _ _ not_scratch_active) (h.refused hbad)).2
  · obtain ⟨other, hother, hreads', hid', -⟩ := hreplaced hcommitted (by rw [hactive]; exact fun h => by cases h)
    rw [hactive] at hother
    rw [← Slot.holds.inj hother] at hreads'
    exact hid (hreads'.header_eq hreads ▸ hid')
  · obtain ⟨other, hother, hreads', -⟩ := hreplaced hcommitted (by rw [hdata]; exact fun h => by cases h)
    rw [hdata] at hother
    exact hunframed other (Slot.holds.inj hother ▸ hreads')

/-- **What a restore comes to**: nothing was done, or a backup with the expected digest was read
and the law holds for what was done under the lock. -/
inductive RestoreOutcome (so : Sodium Hash) (env : RestoreEnv) (c : Nat) (R : World → World → Prop)
    (path backupPath : Bytes) (expected : Hash) (w : World) (status : PvStatus) (w' : World) : Prop
  | nothing (h : R w w') (hbad : ¬status.Committed)
  | done {backup : DiskFile Hash} {location : Location} {w₀ w₁ : World} {fs : Fs}
      (hread : BackupRead so R backupPath w backup) (hhash : so.generichash backup.bytes = expected)
      (h₀ : R w w₀) (hat : w₀.fs.At path location) (h₁ : R w w₁)
      (hlaw : RestoreLaw so env backup location w₁.fs status fs)
      (hafter : Released c R ⟨location, c, w₁.fs⟩ w₁.history fs w')

theorem pvStoreRestore_outcome [DecidableEq Hash] {host : Host} {backupPath : Bytes}
    {expected : Hash} (hR : Neighbours c R) (hidle : w.Idle c) (htidy : TidyPath R path w) :
    (system true c R (Acts c (fun _ _ => True) fun _ _ _ _ => True)).wp
      (pvStoreRestore so host env path backupPath expected)
      (RestoreOutcome so env c R path backupPath expected w) w := by
  refine Sem.wp_mono (pvStoreRestore_spec (BackupRead so R backupPath w) (fun _ => True) hR hidle
    htidy (fun _ h => h.reads) (readDiskFile_backup hR) fun _ _ _ _ _ _ _ _ _ => trivial) ?_
  rintro status w' (⟨h, hbad, -⟩ | ⟨backup, w₁, hread, hhash, h₁, hout⟩)
  · exact .nothing h hbad
  cases hout with
  | refused h => exact .nothing (hR.trans _ _ _ h₁ h.1) h.2.1
  | done h₀ hat _ h₂ _ hQ hafter =>
    have h₀ := hR.trans _ _ _ h₁ h₀
    have h₂ := hR.trans _ _ _ h₁ h₂
    exact .done hread (hread.reads.hash_eq.symm.trans hhash) h₀ hat h₂
      (.of_result (htidy _ _ _ h₀ hat h₂) hQ) hafter

/-- **A restore when no call fails.** -/
theorem pvStoreRestore_succeeds [DecidableEq Hash] (host : Host) {backupPath : Bytes}
    {location place : Location} {backup : DiskFile Hash} (hidle : w.Idle c)
    (hleads : w.fs.LeadsTo path location) (htidy : w.fs.Tidy location)
    (hunlocked : ∀ l ∈ w.locks, l.location ≠ location)
    (hshort : location.name.length + 13 < pathMax) (hnone : w.fs.NoScratch location)
    (hbackup : w.fs.LeadsTo backupPath place) (hshows : w.fs.Shows so place.dir place.name backup)
    (hres : w.fs.Restorable so (restorePlan so env location backup (w.fs.active location)) backup) :
    (system false c (fun a b => b = a) (Acts c (fun _ _ => True) fun _ _ _ _ => True)).wp
      (pvStoreRestore so host env path backupPath backup.hash)
      (fun status w' => status = .ok ∧ RestoreResult so false
        (restorePlan so env location backup (w.fs.active location)) path backup w.fs status w'.fs ∧
        w'.Idle c) w := by
  have hstill : Still (fun a b => Seen (fun a b : World => b = a) w a → Seen (fun a b => b = a) w b)
      w.fs := by
    intro fs' h
    obtain ⟨w₁, rfl, rfl⟩ := h ⟨w, rfl, rfl⟩
    rfl
  refine Sem.wp_mono (pvStoreRestore_spec (fun disk => disk = backup) (fun _ => False)
    (neighbours_none c) hidle ?_ ?_ ?_ fun _ _ _ _ _ _ _ _ _ => trivial) ?_
  · rintro w₀ w₁ location' rfl hat rfl
    rw [hat.unique hleads.at]
    exact htidy
  · rintro disk rfl
    obtain ⟨i, n, -, -, -, hreads, -⟩ := hshows
    exact hreads.bytes_eq ▸ hreads
  · refine Sem.wp_mono (readDiskFile_still so host (fun _ => rfl) (fun _ h => h)
      (fun _ _ _ h h' hs => h' (h hs)) hstill) ?_
    rintro r fs' ⟨-, hok, herr⟩
    refine ⟨fun disk hdisk => ?_, fun status h =>
      ⟨(herr status h).1, (herr status h).2 rfl place backup hbackup hshows⟩⟩
    obtain ⟨location', hat, hshown⟩ := hok disk hdisk
    obtain rfl := hat.unique hbackup.at
    exact hshown.unique hshows
  rintro status w' (⟨-, -, hfalse | ⟨disk, rfl, hother⟩⟩ | ⟨disk, w₁, rfl, -, rfl, hout⟩)
  · exact hfalse.elim
  · exact absurd rfl hother
  rcases hout.alone with ⟨status, -, -, -, hwhy⟩ | ⟨location', hleads', hwork, hidle'⟩
  · obtain ⟨l, hl, hheld⟩ := hwhy rfl location hshort hleads
    exact absurd hheld (hunlocked l hl)
  · obtain rfl := hleads'.at.unique hleads.at
    exact ⟨hwork.clean rfl hnone hleads hshort hres, hwork, hidle'⟩

/-- **Restore installs only the authenticated snapshot**, next to others who respect the lock, for
every state of the directory and every outcome of every call. A backup with another digest is not
installed at all. -/
theorem restore_installs_authenticated [DecidableEq Hash] (host : Host) (hR : Neighbours c R)
    (hidle : w.Idle c) {path : Bytes} (htidy : TidyPath R path w) (env : RestoreEnv)
    (backupPath : Bytes) (expected : Hash) (status : PvStatus)
    (hrun : Sem.Run (system true c R fun _ _ => True)
      (pvStoreRestore so host env path backupPath expected) w (.ret status) w') :
    RestoreOutcome so env c R path backupPath expected w status w' ∧
    ((∀ w₁, R w w₁ → w₁.fs = w.fs) → ∀ location (disk : DiskFile Hash), w.fs.At backupPath location →
      w.fs.Shows so location.dir location.name disk → disk.hash ≠ expected →
      w'.fs = w.fs ∧ ¬status.Committed) := by
  have hout : RestoreOutcome so env c R path backupPath expected w status w' := by
    refine hR.returned (fun status w₁ w₂ h hrely => ?_)
      (pvStoreRestore_outcome hR hidle htidy) hrun
    cases h with
    | nothing h hbad => exact .nothing (hR.trans _ _ _ h hrely) hbad
    | done hread hhash h₀ hat h₁ hlaw hafter =>
      obtain ⟨w₃, h₃, hrest⟩ := hafter.after
      exact .done hread hhash h₀ hat h₁ hlaw ⟨w₃, hR.trans _ _ _ h₃ hrely, hrest⟩
  refine ⟨hout, fun hquiet location disk hat hshows hother => ?_⟩
  cases hout with
  | nothing h hbad => exact ⟨hquiet w' h, hbad⟩
  | done hread hhash =>
    obtain ⟨location', hat', hshown⟩ := hread.shown hquiet
    obtain rfl := hat.unique hat'
    obtain rfl := hshows.unique hshown
    exact absurd (hread.reads.hash_eq.trans hhash) hother

/-- A restore that goes well: the only file is copied into `backups` and installed again. -/
theorem restore_installs_authenticated_plain : ∃ status w',
    Sem.Run (alone 0) (pvStoreRestore Sodium.toy plainHost ⟨5, 7⟩ vaultPath vaultPath
      (sealedBytes (emptySnapshot 1 0))) ⟨onlyVault 1 0, [], []⟩ (.ret status) w' ∧ status = .ok ∧
    RestoreOutcome Sodium.toy ⟨5, 7⟩ 0 (fun a b => b = a) vaultPath vaultPath
      (sealedBytes (emptySnapshot 1 0)) ⟨onlyVault 1 0, [], []⟩ status w' := by
  obtain ⟨disk, hcurrent⟩ := onlyVault_current 1 0
  have hfree : (onlyVault 1 0).BackupFree Sodium.toy (restorePlan Sodium.toy ⟨5, 7⟩ vaultPlace disk
      ((onlyVault 1 0).active vaultPlace)) disk.header.vaultId disk :=
    onlyVault_backupFree 1 0 rfl
  have hnone : (onlyVault 1 0).lookup vaultPlace.dir backupsName = none := by
    rw [onlyVault_lookup, if_neg fun h => absurd h.2 (by decide)]
  have hrestore := pvStoreRestore_succeeds (c := 0) (w := ⟨onlyVault 1 0, [], []⟩)
    plainHost rfl
    (onlyVault_leadsTo 1 0) (fun d name _ => onlyVault_finished 1 0 d name) nofun (by decide)
    (onlyVault_noScratch 1 0) (onlyVault_leadsTo 1 0) hcurrent.shows
    (.inr ⟨⟨disk, hcurrent.shows, rfl⟩, hfree.1, fun d hdir => absurd (hnone.symm.trans hdir) nofun⟩)
  obtain ⟨status, w', hrun, hok, -⟩ := returns_alone hrestore
  rw [show disk.hash = sealedBytes (emptySnapshot 1 0) from hcurrent.hash_eq] at hrun
  refine ⟨status, w', hrun, hok, (restore_installs_authenticated (w := ⟨onlyVault 1 0, [], []⟩) _
    (neighbours_none 0) rfl ?_ _ _ _ _ hrun).1⟩
  rintro w₀ w₁ location rfl - rfl
  exact fun d name _ => onlyVault_finished 1 0 d name

end Restoring

end PVault
