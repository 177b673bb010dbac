import PVault.Atomic

/-!
# Stopping anywhere (`src/store.c`)

A process may stop after any of its calls, and any of its calls may have failed. What is then on
disk is what a run of the operation, cut at an arbitrary point, has made of the file system.

* `underLock_invariant` — what the work under the lock preserves, holds at every point.
* `CrashSafe` — the active name shows the old snapshot, or the complete new one while a copy of
  the old one is in `backups`; and every name was bound by renaming a synced temporary.
* `no_crash_point_loses_data` — creating, saving and restoring are crash-safe.
-/

namespace PVault

open Binary Conc

/-! ## Cut runs -/

section Cut

variable {c : Nat} {w w' : World} {path : Bytes} {α : Type} {I : Fs → Prop}

/-- A guarantee is kept at every point of every run. -/
theorem kept_alone {G : World → World → Prop} {Q : α → World → Prop} {p rest : SysM α}
    {J : World → Prop} (h : (system true c (fun a b => b = a) G).wp p Q w)
    (hguar : ∀ w₁ w₂, G w₁ w₂ → J w₁ → J w₂) (hJ : J w) (hrun : Sem.Run (alone c) p w rest w') :
    J w' := by
  have hrun' : Sem.Run (system true c (fun a b => b = a) G) p w rest w' :=
    hrun.sub (fun _ _ _ _ h => h) fun _ _ h => h
  exact Sem.guar_run hrun' (neighbours_none c).refl (neighbours_none c).trans
    (by rintro a w₁ w₂ hq rfl; exact hq) h (by rintro w₁ w₂ rfl hJ; exact hJ) hguar hJ

/-- **What the work under the lock preserves** holds at every point. -/
theorem underLock_invariant {refused : PvStatus → α} {body : Location → FileM α} {rest : SysM α}
    (hidle : w.Idle c) (hI : I w.fs)
    (hbody : ∀ location, w.fs.At path location →
      (files true Alone fun a b => I a → I b).wp (body location) (fun _ _ => True) w.fs)
    (hrun : Sem.Run (alone c) (underLock path refused body) w rest w') : I w'.fs := by
  have hspec : (system true c (fun a b => b = a)
      (Acts c (fun _ _ => False) fun _ _ a b => I a → I b)).wp (underLock path refused body)
      (LockOutcome true c (fun a b => b = a) path refused (fun _ _ _ _ => True) w) w := by
    refine underLock_spec (neighbours_none c) hidle ?_
    rintro location w₀ w₁ rfl hat rfl
    exact hbody location hat
  refine kept_alone (J := fun w => I w.fs) hspec ?_ hI hrun
  intro w₁ w₂ hacts h₁
  cases hacts with
  | idle => exact h₁
  | outside h => exact h.elim
  | acquire => exact h₁
  | work _ _ h => exact h h₁
  | release => exact h₁

end Cut

/-! ## Crash safety -/

/-- **At any point of an operation** on the vault at `path`, started in `fs`: `content` says which
snapshots the operation may install, `copy` under which names it may keep what it replaces. -/
structure CrashSafe (path : Bytes) (content copy : Bytes → Prop) (fs fs' : Fs) : Prop where
  /-- the name shows what it showed, or the new snapshot, and then the old one is in `backups` -/
  active : fs'.entry path = fs.entry path ∨ ∃ new, content new ∧ fs'.entry path = .holds new ∧
    ∀ old, fs.entry path = .holds old → ∃ name, copy name ∧ fs'.HasBackup path name old
  /-- only synced temporaries with a whole snapshot were renamed -/
  renamed : ∃ events, fs'.log = events ++ fs.log ∧ ∀ e ∈ events, e.synced = true ∧
    (∃ suffix, e.temporary = temporaryName e.name suffix) ∧
      (content e.data ∨ fs.entry path = .holds e.data)
  /-- a file under the name of the vault or of a snapshot was there, or was renamed to it -/
  bound : ∀ location d name i, fs'.At path location →
    (d, name) = (location.dir, location.name) ∨ snapshotExtension <:+ name →
    fs'.lookup d name = some (.file i) → fs.lookup d name = some (.file i) ∨
      ∃ e before, e :: before <:+ fs'.log ∧ fs.log <:+ before ∧ e.synced = true ∧
        (e.dir, e.name) = (d, name) ∧ fs'.slot d name = .holds e.data

namespace CrashSafe

variable {path : Bytes} {content copy : Bytes → Prop} {fs fs' : Fs}

/-- Nothing has happened yet. -/
protected theorem refl (fs : Fs) : CrashSafe path content copy fs fs where
  active := .inl rfl
  renamed := ⟨[], rfl, nofun⟩
  bound _ _ _ _ _ _ hlook := .inl hlook

/-- **Following a plan is crash-safe.** -/
theorem of_steps {plan : Plan} (hsteps : plan.Steps fs fs') (hat : fs.At path plan.location)
    (hold : plan.old = fs.active plan.location) (hfin : fs.Finished) (hcontent : content plan.content)
    (hcopy : ∀ data, plan.base data → copy plan.backup) : CrashSafe path content copy fs fs' := by
  have htidy := hfin.tidy plan.location
  have hsafe := hsteps.safe (Plan.Safe.start htidy hold.symm)
  have hat' := hat.later hsafe.evolves
  refine ⟨?_, ?_, fun location d name i hat₂ hfinal hlook => ?_⟩
  · rw [hat.entry_eq, hat'.entry_eq]
    rcases hsafe.active with hsame | ⟨hnew, hcopied⟩
    · exact .inl (hsame.trans hold)
    · refine .inr ⟨plan.content, hcontent, hnew, fun old hdata => ?_⟩
      obtain ⟨hbase, d, hdir, hslot⟩ := hcopied old (hold.trans hdata)
      exact ⟨plan.backup, hcopy old hbase, plan.location, d, hat', hdir, hslot⟩
  · obtain ⟨events, hlog, hall⟩ := hsafe.log
    refine ⟨events, hlog, fun e he => ?_⟩
    obtain ⟨hsynced, htemporary, ⟨-, hdata⟩ | ⟨-, -, hdata⟩⟩ := hall e he
    · exact ⟨hsynced, htemporary, .inl (hdata ▸ hcontent)⟩
    · exact ⟨hsynced, htemporary, .inr (hat.entry_eq.trans (hold.symm.trans hdata))⟩
  · have hname : ¬Scratch plan.location d name := by
      rcases hfinal with heq | hsnapshot
      · obtain ⟨rfl, rfl⟩ := Prod.mk.inj heq
        rw [hat₂.unique hat']
        exact not_scratch_active
      · exact not_scratch_snapshot hsnapshot
    rcases hsteps.bound htidy hname hlook with hsame | ⟨e, before, hlog, hlater, hlogged, htarget, hslot⟩
    · exact .inl hsame
    · exact .inr ⟨e, before, hlog, hlater, hlogged.synced, htarget, hslot⟩

/-- What was safe since `fs₁` was safe since an earlier `fs`, if no file got a name meanwhile. -/
theorem since {fs₁ : Fs} (h : CrashSafe path content copy fs₁ fs') (hentry : fs₁.entry path = fs.entry path)
    (hlog : fs₁.log = fs.log)
    (hfiles : ∀ d name i, fs₁.lookup d name = some (.file i) → fs.lookup d name = some (.file i)) :
    CrashSafe path content copy fs fs' where
  active := hentry ▸ h.active
  renamed := by
    rw [← hlog, ← hentry]
    exact h.renamed
  bound location d name i hat hfinal hlook := by
    rw [← hlog]
    exact (h.bound location d name i hat hfinal hlook).imp_left (hfiles d name i)

theorem mono {content' copy' : Bytes → Prop} (h : CrashSafe path content copy fs fs')
    (hcontent : ∀ new, content new → content' new) (hcopy : ∀ name, copy name → copy' name) :
    CrashSafe path content' copy' fs fs' where
  active := h.active.imp_right fun ⟨new, hnew, hshown, hcopied⟩ =>
    ⟨new, hcontent new hnew, hshown, fun old hold =>
      (hcopied old hold).imp fun name hname => hname.imp_left (hcopy name)⟩
  renamed := by
    obtain ⟨events, hlog, hall⟩ := h.renamed
    exact ⟨events, hlog, fun e he => ⟨(hall e he).1, (hall e he).2.1,
      (hall e he).2.2.imp_left (hcontent _)⟩⟩
  bound := h.bound

end CrashSafe

section Operations

variable {Hash : Type} {so : Sodium Hash} {c : Nat} {w w' : World}
variable {α : Type} {path password : Bytes} {env : SaveEnv} {vault : Vault Hash}
  {header : FileHeader} {host : Host} {recoveryKey : Block pvRecoveryKeyBytes}
variable {refused : PvStatus → α} {body : Location → FileM α} {rest : SysM α} {retention : Nat}

section Planned

variable (allowed : Location → Plan → Prop) (hidle : w.Idle c)
  (huniq : ∀ location plan plan', allowed location plan → allowed location plan' → plan' = plan)
  (hbody : ∀ location (G : Fs → Fs → Prop), w.fs.At path location → (∀ fs, G fs fs) →
    (∀ plan, allowed location plan → ∀ a b, plan.Step a b → G a b) →
    (files true Alone G).wp (body location) (fun _ _ => True) w.fs)
  (hrun : Sem.Run (alone c) (underLock path refused body) w rest w')
include hidle huniq hbody hrun

/-- An operation under the lock that follows a plan has taken steps of the plan only. -/
theorem underLock_steps : w'.fs = w.fs ∨ ∃ location plan, w.fs.At path location ∧ allowed location plan ∧
      plan.Steps w.fs w'.fs := by
  refine underLock_invariant (I := fun fs => fs = w.fs ∨ ∃ location plan, w.fs.At path location ∧
    allowed location plan ∧ plan.Steps w.fs fs) hidle (.inl rfl) (fun location hat => ?_) hrun
  refine hbody location _ hat (fun _ h => h) fun plan hallowed a b hstep ha => .inr ?_
  rcases ha with rfl | ⟨location', plan', hat', hallowed', hsteps⟩
  · exact ⟨location, plan, hat, hallowed, .single hstep⟩
  · obtain rfl := hat.unique hat'
    obtain rfl := huniq _ _ _ hallowed hallowed'
    exact ⟨location, plan', hat, hallowed, hsteps.tail hstep⟩

/-- **An operation under the lock** that follows a plan is crash-safe. -/
theorem underLock_crashSafe {content copy : Bytes → Prop} (hfin : w.fs.Finished)
    (hplan : ∀ location plan, allowed location plan → plan.location = location ∧
      plan.old = w.fs.active location ∧ content plan.content ∧
      ∀ data, plan.base data → copy plan.backup) : CrashSafe path content copy w.fs w'.fs := by
  rcases underLock_steps allowed hidle huniq hbody hrun with
    hsame | ⟨location, plan, hat, hallowed, hsteps⟩
  · rw [hsame]
    exact CrashSafe.refl _
  · obtain ⟨rfl, hold, hcontent, hcopy⟩ := hplan location plan hallowed
    exact CrashSafe.of_steps hsteps hat hold hfin hcontent hcopy

end Planned

/-- A program that has nothing left to do. -/
theorem run_ret {a : α} (hrun : Sem.Run (alone c) (.ret a) w rest w') :
    w' = w :=
  kept_alone (G := fun _ _ => False) (Q := fun _ _ => True) (J := fun w' => w' = w)
    (Sem.wp_ret.mpr trivial) (fun _ _ h => h.elim) rfl hrun

/-- The snapshot a vault is sealed into. -/
def SealsInto (so : Sodium Hash) (env : SaveEnv) (vault : Vault Hash) (header : FileHeader)
    (new : Bytes) : Prop :=
  ∃ header' ciphertext, sealVault so env (vault.stamped env.now) header = (.ok, header', ciphertext) ∧
    new = serialized header' ++ ciphertext

theorem sealsInto_content (h : (sealVault so env (vault.stamped env.now) header).1 = .ok) :
    SealsInto so env vault header (sealedBytes (sealVault so env (vault.stamped env.now) header)) :=
  ⟨_, _, Prod.ext h rfl, rfl⟩

/-- A save has taken steps of its plan only. -/
theorem pvStoreSave_steps [DecidableEq Hash] (hinj : Function.Injective so.generichash)
    {rest : SysM (PvStatus × Vault Hash × FileHeader)} (hidle : w.Idle c) (hfin : w.fs.Finished)
    (hrun : Sem.Run (alone c) (pvStoreSave so host env vault header retention) w rest w') :
    w'.fs = w.fs ∨ ∃ location, w.fs.At vault.path location ∧
      (sealVault so env (vault.stamped env.now) header).1 = .ok ∧
      (savePlan so env location vault header false (w.fs.active location)).Steps w.fs w'.fs := by
  rw [pvStoreSave] at hrun
  split at hrun
  · exact .inl (congrArg World.fs (run_ret hrun))
  have hsteps := underLock_steps (fun location plan =>
    (sealVault so env (vault.stamped env.now) header).1 = .ok ∧
      plan = savePlan so env location vault header false (w.fs.active location)) hidle
    (by rintro location plan plan' ⟨-, rfl⟩ ⟨-, rfl⟩; rfl)
    (fun location G hat hrefl hG => Sem.wp_mono (saveLocked_spec hinj (hfin.tidy location) hrefl
      fun hseal => hG _ ⟨hseal, rfl⟩) fun _ _ _ => trivial) hrun
  rcases hsteps with hsame | ⟨location, plan, hat, ⟨hseal, rfl⟩, hsteps⟩
  · exact .inl hsame
  · exact .inr ⟨location, hat, hseal, hsteps⟩

theorem pvStoreSave_crashSafe [DecidableEq Hash] (hinj : Function.Injective so.generichash)
    {rest : SysM (PvStatus × Vault Hash × FileHeader)} (hidle : w.Idle c) (hfin : w.fs.Finished)
    (hrun : Sem.Run (alone c) (pvStoreSave so host env vault header retention) w rest w') :
    CrashSafe vault.path (SealsInto so env vault header)
      (fun name => name = autoBackupName vault.vaultId vault.generation.toNat) w.fs w'.fs := by
  rcases pvStoreSave_steps hinj hidle hfin hrun with hsame | ⟨location, hat, hseal, hsteps⟩
  · rw [hsame]
    exact CrashSafe.refl _
  · exact CrashSafe.of_steps hsteps hat rfl hfin (sealsInto_content hseal) fun _ _ => rfl

theorem Drawn.unique {env : CreateEnv} {vault' : Vault Hash} {header' : FileHeader}
    (h : Drawn so env path password recoveryKey vault header)
    (h' : Drawn so env path password recoveryKey vault' header') :
    vault' = vault ∧ header' = header := by
  have hvault := h'.vault_eq
  have hheader := h'.header_eq
  rw [h.vault_eq] at hvault
  rw [h.header_eq] at hheader
  exact ⟨(Except.ok.inj hvault).symm, (Prod.mk.inj hheader).2.symm⟩

/-- The snapshot a new vault is sealed into. -/
def CreatesSnapshot (so : Sodium Hash) (env : CreateEnv) (path password : Bytes)
    (recoveryKey : Block pvRecoveryKeyBytes) (new : Bytes) : Prop :=
  ∃ vault header, Drawn so env path password recoveryKey vault header ∧
    SealsInto so env.save vault header new

theorem createLocked_crashSafe [DecidableEq Hash] (hinj : Function.Injective so.generichash)
    {env : CreateEnv} {rest : SysM (PvStatus × Option (Vault Hash))} (hidle : w.Idle c)
    (hfin : w.fs.Finished)
    (hrun : Sem.Run (alone c) (underLock path (fun status => (status, none)) fun location =>
      createLocked so host env path password recoveryKey location) w rest w') :
    CrashSafe path (CreatesSnapshot so env path password recoveryKey) (fun _ => False) w.fs w'.fs := by
  refine underLock_crashSafe (fun location plan => ∃ vault header,
    Drawn so env path password recoveryKey vault header ∧
      (sealVault so env.save (vault.stamped env.save.now) header).1 = .ok ∧
      plan = savePlan so env.save location vault header true (w.fs.active location)) hidle
    ?_ ?_ hrun hfin ?_
  · rintro location plan plan' ⟨vault, header, hdrawn, -, rfl⟩ ⟨vault', header', hdrawn', -, rfl⟩
    obtain ⟨rfl, rfl⟩ := hdrawn.unique hdrawn'
    rfl
  · intro location G hat hrefl hG
    exact Sem.wp_mono (createLocked_spec hinj (hfin.tidy location) hrefl
      fun vault header hdrawn hseal => hG _ ⟨vault, header, hdrawn, hseal, rfl⟩) fun _ _ _ => trivial
  · rintro location plan ⟨vault, header, hdrawn, hseal, rfl⟩
    exact ⟨rfl, rfl, ⟨vault, header, hdrawn, sealsInto_content hseal⟩, fun _ hbase => nomatch hbase.1⟩

theorem restoreLocked_crashSafe [DecidableEq Hash] {env : RestoreEnv} {backup : DiskFile Hash}
    {rest : SysM PvStatus} (hidle : w.Idle c) (hfin : w.fs.Finished)
    (hreads : backup.Reads so backup.bytes)
    (hrun : Sem.Run (alone c) (underLock path id fun location =>
      restoreLocked so host env path backup location) w rest w') :
    CrashSafe path (fun new => new = backup.bytes)
      (fun name => name = preRestoreName env.now.toInt env.suffix) w.fs w'.fs := by
  refine underLock_crashSafe (fun location plan =>
    plan = restorePlan so env location backup (w.fs.active location)) hidle ?_ ?_ hrun hfin ?_
  · rintro location plan plan' rfl rfl
    rfl
  · intro location G hat hrefl hG
    exact Sem.wp_mono (restoreLocked_spec hreads (hfin.tidy location) (hG _ rfl)) fun _ _ _ => trivial
  · rintro location plan rfl
    exact ⟨rfl, rfl, rfl, fun _ _ => rfl⟩

/-- Making the way to a path gives no file a name. -/
theorem grown_files {comps : List Bytes} {a b : Fs} (h : Relation.ReflTransGen (Fs.Grows comps) a b) :
    b.log = a.log ∧ ∀ d name i, b.lookup d name = some (.file i) → a.lookup d name = some (.file i) := by
  induction h with
  | refl => exact ⟨rfl, fun _ _ _ h => h⟩
  | tail _ hstep ih =>
    obtain ⟨⟨e, other, hmade⟩, -⟩ := hstep
    exact ⟨hmade.log_eq.trans ih.1, fun d name i hlook => ih.2 d name i (hmade.lookup_file hlook)⟩

theorem pvStoreCreate_crashSafe [DecidableEq Hash] (hinj : Function.Injective so.generichash)
    {env : CreateEnv} {rest : SysM (PvStatus × Option (Vault Hash))} (hidle : w.Idle c)
    (hfin : w.fs.Finished)
    (hrun : Sem.Run (alone c) (pvStoreCreate so host env path password recoveryKey) w rest w') :
    CrashSafe path (CreatesSnapshot so env path password recoveryKey) (fun _ => False) w.fs w'.fs := by
  by_cases habs : path.head? = some 0x2f
  swap
  · rw [pvStoreCreate_relative habs] at hrun
    rw [run_ret hrun]
    exact CrashSafe.refl _
  -- While the way is made, no file gets a name.
  have hway : (system true c (fun a b => b = a) (Acts c (Fs.Grows (Fs.components (parentPath path)))
      fun _ _ _ _ => False)).wp (onFiles (ensureParentDirectory path))
      (fun _ w' => Roams (fun a b => b = a) (Fs.Grows (Fs.components (parentPath path))) w w') w :=
    Sem.wp_mono (wp_outside (ensureParentDirectory_spec onFiles_refl onFiles_trans fun _ _ h => h))
      fun _ _ h => h.1
  have hgrown : ∀ {fs₁ fs₂ : Fs},
      Relation.ReflTransGen (Fs.Grows (Fs.components (parentPath path))) w.fs fs₁ →
      CrashSafe path (CreatesSnapshot so env path password recoveryKey) (fun _ => False) fs₁ fs₂ →
      CrashSafe path (CreatesSnapshot so env path password recoveryKey) (fun _ => False) w.fs fs₂ :=
    fun h hsafe => hsafe.since (grown_entry habs h hfin).2 (grown_files h).1 (grown_files h).2
  rcases hrun.bind_cases with ⟨p, hrun, -⟩ | ⟨status, w₁, hrun₁, hrun⟩
  · refine hgrown (kept_alone (J := fun w₁ => Relation.ReflTransGen
      (Fs.Grows (Fs.components (parentPath path))) w.fs w₁.fs) hway ?_ .refl hrun) (CrashSafe.refl _)
    intro w₁ w₂ hacts h₁
    cases hacts with
    | idle => exact h₁
    | outside h => exact h₁.tail h
    | acquire => exact h₁
    | work _ _ h => exact h.elim
    | release => exact h₁
  · have hroams := returned_alone hway hrun₁
    refine hgrown hroams.grown ?_
    split at hrun
    · rw [run_ret hrun]
      exact CrashSafe.refl _
    · exact createLocked_crashSafe hinj (hroams.idle (neighbours_none c) hidle)
        (grown_entry habs hroams.grown hfin).1 hrun

/-- The snapshot a restore may install. -/
def Expected (so : Sodium Hash) (expected : Hash) (new : Bytes) : Prop :=
  so.generichash new = expected ∧ ∃ disk : DiskFile Hash, disk.Reads so new

theorem pvStoreRestore_crashSafe [DecidableEq Hash] {env : RestoreEnv} {backupPath : Bytes}
    {expected : Hash} {rest : SysM PvStatus} (hidle : w.Idle c) (hfin : w.fs.Finished)
    (hrun : Sem.Run (alone c) (pvStoreRestore so host env path backupPath expected) w rest w') :
    CrashSafe path (Expected so expected)
      (fun name => name = preRestoreName env.now.toInt env.suffix) w.fs w'.fs := by
  have hread : (system true c (fun a b => b = a) (Acts c (fun _ _ => False) fun _ _ _ _ => False)).wp
      (onFiles (readDiskFile so host backupPath)) (fun r w' => w' = w ∧ ReadsWhole so r) w :=
    wp_look (neighbours_none c) (readDiskFile_whole so host (fun _ => rfl) (fun _ h => h)
      fun _ _ _ h h' hs => h' (h hs))
  rcases hrun.bind_cases with ⟨p, hrun, -⟩ | ⟨r, w₁, hrun₁, hrun⟩
  · have hsame : w'.fs = w.fs := by
      refine kept_alone (J := fun w₁ => w₁.fs = w.fs) hread ?_ rfl hrun
      intro w₁ w₂ hacts h₁
      cases hacts with
      | idle => exact h₁
      | outside h => exact h.elim
      | acquire => exact h₁
      | work _ _ h => exact h.elim
      | release => exact h₁
    rw [hsame]
    exact CrashSafe.refl _
  · obtain ⟨rfl, hok, -⟩ := returned_alone hread hrun₁
    cases r with
    | error status =>
      rw [run_ret hrun]
      exact CrashSafe.refl _
    | ok backup =>
      dsimp only at hrun
      split at hrun
      · rw [run_ret hrun]
        exact CrashSafe.refl _
      · next hhash =>
        have hreads := hok backup rfl
        refine (restoreLocked_crashSafe hidle hfin hreads hrun).mono ?_ fun _ h => h
        rintro new rfl
        exact ⟨hreads.hash_eq.symm.trans (not_not.mp hhash), backup, hreads⟩

/-- **No crash point loses data**: wherever a create, save or restore stops, and whatever calls have
failed until then. -/
theorem no_crash_point_loses_data [DecidableEq Hash] (hinj : Function.Injective so.generichash)
    (host : Host) (hidle : w.Idle c) (hfin : w.fs.Finished) :
    (∀ env vault header retention rest w',
      Sem.Run (alone c) (pvStoreSave so host env vault header retention) w rest w' →
      CrashSafe vault.path (SealsInto so env vault header)
        (fun name => name = autoBackupName vault.vaultId vault.generation.toNat) w.fs w'.fs) ∧
    (∀ env path password recoveryKey rest w',
      Sem.Run (alone c) (pvStoreCreate so host env path password recoveryKey) w rest w' →
      CrashSafe path (CreatesSnapshot so env path password recoveryKey) (fun _ => False) w.fs w'.fs) ∧
    ∀ env path backupPath expected rest w',
      Sem.Run (alone c) (pvStoreRestore so host env path backupPath expected) w rest w' →
      CrashSafe path (Expected so expected)
        (fun name => name = preRestoreName env.now.toInt env.suffix) w.fs w'.fs :=
  ⟨fun _ _ _ _ _ _ hrun => pvStoreSave_crashSafe hinj hidle hfin hrun,
    fun _ _ _ _ _ _ hrun => pvStoreCreate_crashSafe hinj hidle hfin hrun,
    fun _ _ _ _ _ _ hrun => pvStoreRestore_crashSafe hidle hfin hrun⟩

/-- A save that is cut at the very end, after everything went well. -/
theorem no_crash_point_loses_data_saved : ∃ r w',
    Sem.Run (alone 0) (pvStoreSave Sodium.toy plainHost (readyEnv 5) (emptyHandle 1 0)
      backupHeader 1) ⟨onlyVault 1 0, [], []⟩ (.ret r) w' ∧ r.1 = .ok ∧
    CrashSafe vaultPath (SealsInto Sodium.toy (readyEnv 5) (emptyHandle 1 0) backupHeader)
      (fun name => name = backupName 1) (onlyVault 1 0) w'.fs := by
  obtain ⟨r, w', hrun, hok⟩ := emptyHandle_saved 1 0 5 (by decide) (by decide) (by decide)
  have hsafe := (no_crash_point_loses_data (c := 0) (w := ⟨onlyVault 1 0, [], []⟩) Sodium.toy_injective
    plainHost rfl (onlyVault_finished 1 0)).1
  exact ⟨r, w', hrun, hok, hsafe _ _ _ _ _ _ hrun⟩

end Operations

end PVault
