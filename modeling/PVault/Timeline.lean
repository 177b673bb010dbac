import PVault.Retry

/-!
# Histories of one vault (`src/store.c`)

One client makes a vault, saves it and restores earlier snapshots, in any order and number, and no
call fails. Whatever it has done, the directory stays in order: the path leads where it led, every
file is finished and has one name, the active file is private, and there is room for `backups`. So
a save fails for one reason only: its copy of the active file has no place.

* `Fs.Settled.step` — no step of an operation brings disorder.
* `Timeline.orderly` — nor does any history.
* `Qualifies.saves` — then a save succeeds just if its copy has a place.
-/

namespace PVault

open Binary Conc

/-! ## A directory in order -/

/-- The directory of the vault is in order. -/
structure Fs.Settled (path : Bytes) (location : Location) (fs : Fs) : Prop where
  leadsTo : fs.LeadsTo path location
  short : location.name.length + 13 < pathMax
  tidy : fs.Tidy location
  unshared : fs.Unshared location
  /-- there is room for the directory of backups, unless the vault itself has its name -/
  hosts : location.name ≠ backupsName → fs.CanHost location.dir backupsName
  active : fs.lookup location.dir location.name = none ∨ ∃ data, fs.HoldsPrivate location data

section Settled

variable {plan : Plan} {a b : Fs} {path : Bytes} {location : Location}

namespace Plan

/-- A private file stays as it is when another name is published. -/
theorem holdsPrivate_other {d i : Nat} {name data : Bytes} {n : Inode} {place : Location}
    (h : Fs.Published (Scratch location) d name i n a b) (hplace : ¬Scratch location place.dir place.name)
    (hne : (place.dir, place.name) ≠ (d, name)) (hname : ¬Scratch location d name)
    (ha : a.Unshared location) (hholds : a.HoldsPrivate place data) : b.HoldsPrivate place data := by
  obtain ⟨j, hlook, hn⟩ := hholds
  refine ⟨j, (h.lookup_ne _ _ hplace hne).trans hlook, ?_⟩
  obtain ⟨m, hm, -, hsame⟩ := h.old j _ rfl hn
  rw [hm, hsame fun hshared => hne (ha _ _ _ _ j hplace hname hlook hshared)]

/-- A private file that is not pruned stays as it is, or becomes the new snapshot. -/
theorem Step.holdsPrivate {place : Location} {data : Bytes} (h : plan.Step a b)
    (ha : a.Unshared plan.location) (hplace : ¬Scratch plan.location place.dir place.name)
    (hbackup : a.lookup plan.location.dir backupsName = some (.dir place.dir) → ¬plan.prunes place.name)
    (hholds : a.HoldsPrivate place data) : b.HoldsPrivate place data ∨
      place = plan.location ∧ b.HoldsPrivate place plan.content := by
  have hbound : a.lookup place.dir place.name ≠ none := by
    obtain ⟨j, hlook, -⟩ := hholds
    rw [hlook]
    exact nofun
  have hnew : ∀ {i}, Fs.Published (Scratch plan.location) plan.location.dir plan.location.name i
      (publishedInode plan.content 0o600) a b → b.HoldsPrivate place data ∨
        place = plan.location ∧ b.HoldsPrivate place plan.content := by
    intro i h
    by_cases heq : place = plan.location
    · exact .inr ⟨heq, heq ▸ ⟨i, h.lookup_eq, h.inode_eq⟩⟩
    · refine .inl (holdsPrivate_other h hplace (fun hsame => heq ?_) not_scratch_active ha hholds)
      cases place
      cases hloc : plan.location
      rw [hloc] at hsame
      exact Location.mk.injEq .. ▸ Prod.mk.inj hsame
  cases h with
  | quiet h =>
    obtain ⟨j, hlook, hn⟩ := hholds
    exact .inl ⟨j, (h.lookup_eq _ _ hplace).trans hlook, (h.inode_iff j _ rfl).mpr hn⟩
  | made _ h =>
    obtain ⟨j, hlook, hn⟩ := hholds
    exact .inl ⟨j, (h.lookup_eq _ _ (.inl hbound)).trans hlook, by rw [h.inodes_eq, hn]⟩
  | backup _ _ _ hfree h =>
    refine .inl (holdsPrivate_other h hplace (fun heq => hbound ?_)
      (not_scratch_snapshot plan.backup_snapshot) ha hholds)
    rw [(Prod.mk.inj heq).1, (Prod.mk.inj heq).2, hfree]
  | replace _ _ _ _ h => exact hnew h
  | create _ _ h => exact hnew h
  | @pruned d hdir h =>
    obtain ⟨j, hlook, hn⟩ := hholds
    have hstays : ¬(place.dir = d ∧ plan.prunes place.name) := fun hbad =>
      hbackup (hbad.1 ▸ hdir) hbad.2
    refine .inl ⟨j, (h.lookup_eq _ _ hstays).trans hlook, ?_⟩
    obtain ⟨m, hm, -, hsame | ⟨other, hother, hlook'⟩⟩ := h.files j _ hn
    · rw [hm, hsame]
    · have heq := ha _ _ _ other j hplace
        (not_scratch_snapshot (plan.prunes_snapshot other hother)) hlook hlook'
      obtain ⟨hd, hn'⟩ := Prod.mk.inj heq
      exact absurd ⟨hd, hn' ▸ hother⟩ hstays

/-- There is still room for the directory of backups. -/
theorem Step.canHost (h : plan.Step a b) (hname : plan.location.name ≠ backupsName)
    (ha : a.CanHost plan.location.dir backupsName) : b.CanHost plan.location.dir backupsName := by
  -- Publishing the active name changes no directory.
  have hpub : ∀ {i n}, Fs.Published (Scratch plan.location) plan.location.dir plan.location.name i n a b →
      b.CanHost plan.location.dir backupsName := by
    intro i n h
    have hstat := h.statDir_eq plan.location.dir
    rw [Fs.canHost_iff] at ha ⊢
    rcases ha with ⟨hnone, hlt⟩ | ⟨d, st, hdir, hst, hown⟩
    · refine .inl ⟨(h.lookup_ne _ _ not_scratch_backups fun heq => hname (Prod.mk.inj heq).2.symm).trans
        hnone, ?_⟩
      rw [Fs.statDir, Fs.statDir, List.getElem?_eq_getElem hlt] at hstat
      obtain ⟨dir, hdir, -⟩ := Option.map_eq_some_iff.mp hstat
      exact (List.getElem?_eq_some_iff.mp hdir).1
    · exact .inr ⟨d, st, (h.dir_iff _ _ _).mpr hdir, (h.statDir_eq d).trans hst, hown⟩
  cases h with
  | quiet h => exact (Prepares.quiet h).canHost ha
  | made hactive h => exact (Prepares.made hactive h).canHost ha
  | backup hold hbase hdir hfree h => exact (Prepares.backup hold hbase hdir hfree h).canHost ha
  | replace _ _ _ _ h => exact hpub h
  | create _ _ h => exact hpub h
  | pruned hdir h =>
    rw [Fs.canHost_iff] at ha ⊢
    rcases ha with ⟨hnone, -⟩ | ⟨d, st, hdir', hst, hown⟩
    · exact absurd (hnone.symm.trans hdir) (Option.some_ne_none _).symm
    · exact .inr ⟨d, st, h.evolves.dir_mono _ _ _ hdir', (h.statDir_eq d).trans hst, hown⟩

/-- The active name shows a private file, if any. -/
theorem Step.activePrivate (h : plan.Step a b) (ha : a.Unshared plan.location)
    (hactive : a.lookup plan.location.dir plan.location.name = none ∨
      ∃ data, a.HoldsPrivate plan.location data) :
    b.lookup plan.location.dir plan.location.name = none ∨
      ∃ data, b.HoldsPrivate plan.location data := by
  rcases hactive with hnone | ⟨data, hholds⟩
  · cases h with
    | quiet h => exact .inl ((h.lookup_eq _ _ not_scratch_active).trans hnone)
    | made hactive => exact absurd hnone hactive
    | backup _ _ hdir _ h =>
      refine .inl ((h.lookup_ne _ _ not_scratch_active fun heq => ?_).trans hnone)
      exact Fs.backups_ne hdir (Prod.mk.inj heq).1.symm
    | replace _ _ _ _ h => exact .inr ⟨_, _, h.lookup_eq, h.inode_eq⟩
    | create _ _ h => exact .inr ⟨_, _, h.lookup_eq, h.inode_eq⟩
    | pruned hdir h =>
      refine .inl ((h.lookup_eq _ _ fun hbad => ?_).trans hnone)
      exact Fs.backups_ne hdir hbad.1.symm
  · have hother : a.lookup plan.location.dir backupsName = some (.dir plan.location.dir) →
        ¬plan.prunes plan.location.name := fun hself => absurd rfl (Fs.backups_ne hself)
    rcases h.holdsPrivate ha not_scratch_active hother hholds with hsame | ⟨-, hnew⟩
    · exact .inr ⟨_, hsame⟩
    · exact .inr ⟨_, hnew⟩

end Plan

/-- **No step brings disorder.** -/
theorem Fs.Settled.step (ha : a.Settled path plan.location) (h : plan.Step a b) :
    b.Settled path plan.location where
  leadsTo := Plan.Steps.leadsTo (.single h) ha.leadsTo
  short := ha.short
  tidy := h.tidy ha.tidy
  unshared := h.unshared ha.tidy ha.unshared
  hosts hname := h.canHost hname (ha.hosts hname)
  active := h.activePrivate ha.unshared ha.active

theorem Fs.Settled.steps (ha : a.Settled path plan.location) (h : plan.Steps a b) :
    b.Settled path plan.location := by
  induction h with
  | refl => exact ha
  | tail _ hstep ih => exact ih.step hstep

end Settled

/-! ## Histories -/

/-- Nobody holds a lock, the directory is in order, and no unfinished file is left. -/
structure World.Orderly (path : Bytes) (location : Location) (w : World) : Prop where
  unlocked : w.locks = []
  settled : w.fs.Settled path location
  noScratch : w.fs.NoScratch location

/-- A place for a new vault: however the missing directories on the way to it are made, its
directory is in order. -/
structure World.Unused (path : Bytes) (w : World) : Prop where
  absolute : path.head? = some 0x2f
  unlocked : w.locks = []
  finished : w.fs.Finished
  settled : ∀ fs, Relation.ReflTransGen (Fs.Grows (Fs.components (parentPath path))) w.fs fs →
    ∀ location, fs.LeadsTo path location → fs.Settled path location ∧ fs.NoScratch location

/-- **The worlds a client comes to** that makes a vault and then works with it: saves it, whatever
the handle, restores whatever is at a path, tries to make it again. Nobody else acts and no call
fails. -/
inductive Timeline {Hash : Type} [DecidableEq Hash] (so : Sodium Hash) (c : Nat) (path : Bytes) :
    World → Prop
  | create {w w' : World} {host : Host} {env : CreateEnv} {password : Bytes}
      {recoveryKey : Block pvRecoveryKeyBytes} {vault : Option (Vault Hash)} (h : w.Unused path)
      (hrun : Sem.Run (undisturbed c) (pvStoreCreate so host env path password recoveryKey) w
        (.ret (.ok, vault)) w') : Timeline so c path w'
  | again {w w' : World} {host : Host} {env : CreateEnv} {password : Bytes}
      {recoveryKey : Block pvRecoveryKeyBytes} {r : PvStatus × Option (Vault Hash)}
      (h : Timeline so c path w)
      (hrun : Sem.Run (undisturbed c) (pvStoreCreate so host env path password recoveryKey) w
        (.ret r) w') : Timeline so c path w'
  | save {w w' : World} {host : Host} {env : SaveEnv} {vault : Vault Hash} {header : FileHeader}
      {retention : Nat} {r : PvStatus × Vault Hash × FileHeader} (h : Timeline so c path w)
      (hpath : vault.path = path)
      (hrun : Sem.Run (undisturbed c) (pvStoreSave so host env vault header retention) w (.ret r) w') :
      Timeline so c path w'
  | restore {w w' : World} {host : Host} {env : RestoreEnv} {backupPath : Bytes} {expected : Hash}
      {status : PvStatus} (h : Timeline so c path w)
      (hrun : Sem.Run (undisturbed c) (pvStoreRestore so host env path backupPath expected) w
        (.ret status) w') : Timeline so c path w'

section Histories

variable {Hash : Type} {so : Sodium Hash} {c : Nat} {path : Bytes} {location : Location} {w w' : World}
variable {α : Type} {password : Bytes} {recoveryKey : Block pvRecoveryKeyBytes}
  {r : PvStatus × Option (Vault Hash)} {retention : Nat}
variable {p rest : SysM α} {G : World → World → Prop} {Q : α → World → Prop} {backupPath : Bytes}
  {expected : Hash} {status : PvStatus}

/-- A client takes locks for itself only. -/
theorem Run.mine (h : Sem.Run (undisturbed c) p w rest w') (hw : ∀ l ∈ w.locks, l.client = c) :
    ∀ l ∈ w'.locks, l.client = c := by
  induction h with
  | refl => exact hw
  | env hrely _ ih =>
    obtain rfl := hrely
    exact ih hw
  | call hstep _ ih =>
    refine ih ?_
    cases hstep with
    | flock => exact List.forall_mem_cons.mpr ⟨rfl, hw⟩
    | unlock => exact fun l hl => hw l (List.mem_filter.mp hl).1
    | closeLock => exact fun l hl => hw l (List.mem_filter.mp hl).1
    | _ => exact hw

theorem Run.unlocked (h : Sem.Run (undisturbed c) p w rest w') (hw : w.locks = [])
    (hidle : w'.Idle c) : w'.locks = [] := by
  have hmine := Run.mine h (by rw [hw]; exact nofun)
  rw [World.Idle, World.locksOf, List.filter_eq_self.mpr fun l hl => by simp [hmine l hl]] at hidle
  exact hidle

/-- What a run without faults returned. -/
theorem returned_undisturbed {a : α} (h : (system false c (fun a b => b = a) G).wp p Q w)
    (hrun : Sem.Run (undisturbed c) p w (.ret a) w') : Q a w' := by
  have hrun' : Sem.Run (system false c (fun a b => b = a) G) p w (.ret a) w' :=
    hrun.sub (fun _ _ _ _ h => h) fun _ _ h => h
  exact Sem.wp_run hrun' (neighbours_none c).refl (neighbours_none c).trans
    (by rintro a w₁ w₂ hq rfl; exact hq) h

/-- A program returns when no call fails. -/
theorem returns_undisturbed (h : (system false c (fun a b => b = a) G).wp p Q w) :
    ∃ a w', Sem.Run (undisturbed c) p w (.ret a) w' ∧ Q a w' := by
  obtain ⟨a, w', hrun, hq⟩ := Sem.exists_run (fun _ => rfl) (show ¬false = true by decide)
    (World.Step.answers false c) h
  exact ⟨a, w', hrun.sub (fun _ _ _ _ h => h) fun _ _ h => h, hq⟩

/-- A directory that is there is not made. -/
theorem Fs.Settled.grown {a b : Fs} (habs : path.head? = some 0x2f) (h : a.Settled path location)
    (hgrown : Relation.ReflTransGen (Fs.Grows (Fs.components (parentPath path))) a b) : b = a := by
  have hway : a.walk 0 (Fs.components (parentPath path)) ≠ none := by
    by_cases hne : parentPath path = []
    · rw [hne]
      exact Option.some_ne_none 0
    · obtain ⟨parent, -, hsplit, hresolve, -⟩ := h.leadsTo
      obtain ⟨rfl, hparent⟩ := split_parentPath habs hne hsplit
      rw [Fs.resolve, Fs.origin, if_pos hparent] at hresolve
      rw [hresolve]
      exact Option.some_ne_none _
  induction hgrown with
  | refl => rfl
  | tail _ hstep ih =>
    rw [ih] at hstep
    exact hstep.2 hway

theorem Roams.locks_eq {outside : Fs → Fs → Prop} (h : Roams (fun a b => b = a) outside w w') :
    w'.locks = w.locks := by
  induction h with
  | refl => rfl
  | tail _ hstep ih =>
    rcases hstep with rfl | ⟨fs', -, rfl⟩
    · exact ih
    · exact ih

theorem World.idle_unlocked (h : w.locks = []) (c : Nat) : w.Idle c := by
  rw [World.Idle, World.locksOf, h, List.filter_nil]

theorem World.Orderly.idle (h : w.Orderly path location) (c : Nat) : w.Idle c :=
  World.idle_unlocked h.unlocked c

theorem World.Orderly.tidyPath (h : w.Orderly path location) : TidyPath (fun a b => b = a) path w := by
  rintro w₀ w₁ location' rfl hat rfl
  rw [hat.unique h.settled.leadsTo.at]
  exact h.settled.tidy

/-- The work of a create keeps the directory in order. -/
theorem CreateResult.orderly {env : CreateEnv} {fs : Fs}
    (h : CreateResult so false env path password recoveryKey location fs r w'.fs)
    (hunlocked : w'.locks = []) (hsettled : fs.Settled path location)
    (hnone : fs.NoScratch location) :
    w'.Orderly path location := by
  refine ⟨hunlocked, ?_, (h.clean rfl hnone hsettled.leadsTo hsettled.short).1⟩
  rcases h.effect with hsame | ⟨vault, header, -, hsteps⟩
  · rw [hsame]
    exact hsettled
  · exact Fs.Settled.steps hsettled hsteps

variable [DecidableEq Hash] {host : Host}

/-- A save in an orderly world returns. -/
theorem World.Orderly.returns (hinj : Function.Injective so.generichash) (host : Host)
    (env : SaveEnv) {vault : Vault Hash} (header : FileHeader) (h : w.Orderly vault.path location)
    (hdirty : vault.dirty = true) (hretention : retention ≠ 0) :
    ∃ r w', Sem.Run (undisturbed c) (pvStoreSave so host env vault header retention) w (.ret r) w' := by
  obtain ⟨r, w', hrun, -⟩ := returns_undisturbed (p := pvStoreSave so host env vault header retention)
    (G := Acts c (fun _ _ => True) fun _ _ _ _ => True)
    (pvStoreSave_spec (neighbours_none c) (h.idle c) hinj h.tidyPath hdirty hretention
      (fun _ _ _ => trivial) fun _ _ _ _ _ _ _ => trivial)
  exact ⟨r, w', hrun⟩

/-- **A save in an orderly world** gets the lock. -/
theorem World.Orderly.saves (hinj : Function.Injective so.generichash) {env : SaveEnv}
    {vault : Vault Hash} {header : FileHeader} {r : PvStatus × Vault Hash × FileHeader}
    (h : w.Orderly vault.path location) (hdirty : vault.dirty = true) (hretention : retention ≠ 0)
    (hrun : Sem.Run (undisturbed c) (pvStoreSave so host env vault header retention) w (.ret r) w') :
    SaveWork so host false env vault header location w.fs r w'.fs ∧ w'.locks = [] := by
  have hout := returned_undisturbed (G := Acts c (fun _ _ => True) fun _ _ _ _ => True)
    (pvStoreSave_spec (neighbours_none c) (h.idle c) hinj h.tidyPath hdirty hretention
      (fun _ _ _ => trivial) fun _ _ _ _ _ _ _ => trivial) hrun
  rcases hout.alone with ⟨status, -, -, -, hwhy⟩ | ⟨location', hleads, hwork, hidle'⟩
  · obtain ⟨l, hl, -⟩ := hwhy rfl location h.settled.short h.settled.leadsTo
    rw [h.unlocked] at hl
    cases hl
  · obtain rfl := hleads.at.unique h.settled.leadsTo.at
    exact ⟨hwork, Run.unlocked hrun h.unlocked hidle'⟩

theorem World.Orderly.saved (hinj : Function.Injective so.generichash) {env : SaveEnv}
    {vault : Vault Hash} {header : FileHeader} {r : PvStatus × Vault Hash × FileHeader}
    (h : w.Orderly vault.path location)
    (hrun : Sem.Run (undisturbed c) (pvStoreSave so host env vault header retention) w (.ret r) w') :
    w'.Orderly vault.path location := by
  by_cases hgo : vault.dirty = false ∨ retention = 0
  · rw [pvStoreSave, if_pos hgo] at hrun
    have hsame : w' = w := returned_undisturbed (G := fun _ _ => True) (Q := fun _ w' => w' = w)
      (Sem.wp_ret.mpr rfl) hrun
    rw [hsame]
    exact h
  · obtain ⟨hdirty, hretention⟩ := not_or.mp hgo
    obtain ⟨hwork, hunlocked⟩ := h.saves hinj (Bool.eq_true_of_not_eq_false hdirty) hretention hrun
    exact ⟨hunlocked, Fs.Settled.steps h.settled hwork.steps,
      (hwork.clean rfl h.noScratch.roomy h.settled.leadsTo h.settled.short).noScratch h.noScratch⟩

/-- **A restore in an orderly world** read nothing it wants, or gets the lock. -/
theorem World.Orderly.restores {env : RestoreEnv} (h : w.Orderly path location)
    (hrun : Sem.Run (undisturbed c) (pvStoreRestore so host env path backupPath expected) w
      (.ret status) w') :
    w' = w ∨ w'.locks = [] ∧ ∃ backup : DiskFile Hash, RestoreResult so false
      (restorePlan so env location backup (w.fs.active location)) path backup w.fs status w'.fs := by
  have hread : (files false (fun a b => Seen (fun a b : World => b = a) w a →
      Seen (fun a b => b = a) w b) fun a b => b = a).wp (readDiskFile so host backupPath)
      (fun r _ => (∀ disk, r = .ok disk → disk.Reads so disk.bytes) ∧
        ∀ status, r = .error status → ¬status.Committed ∧ True) w.fs := by
    refine Sem.wp_mono (readDiskFile_whole so host (fun _ => rfl) (fun _ h => h)
      fun _ _ _ h h' hs => h' (h hs)) ?_
    exact fun r _ h => ⟨h.1, fun status herr => ⟨h.2 status herr, trivial⟩⟩
  have hout := returned_undisturbed (G := Acts c (fun _ _ => True) fun _ _ _ _ => True)
    (pvStoreRestore_spec (fun disk : DiskFile Hash => disk.Reads so disk.bytes) (fun _ => True)
      (neighbours_none c) (h.idle c) h.tidyPath (fun _ h => h) hread
      fun _ _ _ _ _ _ _ _ _ => trivial) hrun
  rcases hout with ⟨hsame, -⟩ | ⟨backup, w₁, -, -, rfl, hout⟩
  · exact .inl hsame
  rcases hout.alone with ⟨status, -, hsame, -⟩ | ⟨location', hleads, hwork, hidle'⟩
  · exact .inl hsame
  · obtain rfl := hleads.at.unique h.settled.leadsTo.at
    exact .inr ⟨Run.unlocked hrun h.unlocked hidle', backup, hwork⟩

theorem World.Orderly.restored {env : RestoreEnv} (h : w.Orderly path location)
    (hrun : Sem.Run (undisturbed c) (pvStoreRestore so host env path backupPath expected) w
      (.ret status) w') : w'.Orderly path location := by
  rcases h.restores hrun with rfl | ⟨hunlocked, backup, hwork⟩
  · exact h
  · exact ⟨hunlocked, Fs.Settled.steps h.settled hwork.steps,
      hwork.noScratch rfl h.noScratch h.settled.leadsTo h.settled.short⟩

/-- **Making a vault** after the missing directories were made: nothing more was done, or the work
under the lock. -/
theorem pvStoreCreate_undisturbed (hinj : Function.Injective so.generichash) {env : CreateEnv}
    (hunlocked : w.locks = [])
    (hsettled : ∀ fs, Relation.ReflTransGen (Fs.Grows (Fs.components (parentPath path))) w.fs fs →
      ∀ location, fs.At path location → fs.Tidy location)
    (hrun : Sem.Run (undisturbed c) (pvStoreCreate so host env path password recoveryKey) w
      (.ret r) w') :
    ∃ fs, Relation.ReflTransGen (Fs.Grows (Fs.components (parentPath path))) w.fs fs ∧
      w'.locks = [] ∧ (w'.fs = fs ∧ ¬r.1.Committed ∨ ∃ location, fs.LeadsTo path location ∧
        CreateResult so false env path password recoveryKey location fs r w'.fs) := by
  have hidle : w.Idle c := World.idle_unlocked hunlocked c
  have htidy : ∀ w₁, Roams (fun a b => b = a) (Fs.Grows (Fs.components (parentPath path))) w w₁ →
      TidyPath (fun a b => b = a) path w₁ := by
    rintro w₁ h₁ w₂ w₃ location rfl hat rfl
    exact hsettled _ h₁.grown location hat
  obtain ⟨w₁, hroams, ⟨rfl, hbad, -⟩ | hout⟩ := returned_undisturbed
    (G := Acts c (Fs.Grows (Fs.components (parentPath path))) fun _ _ _ _ => True)
    (pvStoreCreate_spec (neighbours_none c) hidle hinj htidy (fun _ _ h => h) (fun _ _ _ => trivial)
      fun _ _ _ _ _ _ _ _ _ _ => trivial) hrun
  · exact ⟨w'.fs, hroams.grown, hroams.locks_eq.trans hunlocked, .inl ⟨rfl, hbad⟩⟩
  refine ⟨w₁.fs, hroams.grown, ?_⟩
  rcases hout.alone with ⟨status, rfl, rfl, hbad, -⟩ | ⟨location, hleads, hwork, hidle'⟩
  · exact ⟨hroams.locks_eq.trans hunlocked, .inl ⟨rfl, hbad⟩⟩
  · exact ⟨Run.unlocked hrun hunlocked hidle', .inr ⟨location, hleads, hwork⟩⟩

theorem World.Unused.created (hinj : Function.Injective so.generichash) {env : CreateEnv}
    {vault : Option (Vault Hash)} (h : w.Unused path)
    (hrun : Sem.Run (undisturbed c) (pvStoreCreate so host env path password recoveryKey) w
      (.ret (.ok, vault)) w') : ∃ location, w'.Orderly path location := by
  obtain ⟨fs, hgrown, hunlocked, ⟨-, hbad⟩ | ⟨location, hleads, hwork⟩⟩ :=
    pvStoreCreate_undisturbed hinj h.unlocked
      (fun fs hgrown location _ => (grown_entry h.absolute hgrown h.finished).1.tidy location) hrun
  · exact absurd (.inl rfl) hbad
  · obtain ⟨hsettled, hnone⟩ := h.settled fs hgrown location hleads
    exact ⟨location, hwork.orderly hunlocked hsettled hnone⟩

theorem World.Orderly.createdAgain (hinj : Function.Injective so.generichash)
    (habs : path.head? = some 0x2f) {env : CreateEnv} (h : w.Orderly path location)
    (hrun : Sem.Run (undisturbed c) (pvStoreCreate so host env path password recoveryKey) w
      (.ret r) w') : w'.Orderly path location := by
  obtain ⟨fs, hgrown, hunlocked, hcases⟩ := pvStoreCreate_undisturbed hinj h.unlocked
    (fun fs hgrown location' hat => by
      rw [h.settled.grown habs hgrown] at hat ⊢
      rw [hat.unique h.settled.leadsTo.at]
      exact h.settled.tidy) hrun
  rw [h.settled.grown habs hgrown] at hcases
  rcases hcases with ⟨hsame, -⟩ | ⟨location', hleads, hwork⟩
  · exact ⟨hunlocked, hsame ▸ h.settled, hsame ▸ h.noScratch⟩
  · rw [hleads.at.unique h.settled.leadsTo.at] at hwork
    exact hwork.orderly hunlocked h.settled h.noScratch

/-- **A vault is made** under a free name of an orderly world, if it can be sealed. -/
theorem World.Orderly.creates (hinj : Function.Injective so.generichash)
    (habs : path.head? = some 0x2f) {env : CreateEnv} {vault : Vault Hash} {header : FileHeader}
    (h : w.Orderly path location) (hdrawn : Drawn so env path password recoveryKey vault header)
    (hseal : vault.Sealable so env.save header)
    (hfree : w.fs.lookup location.dir location.name = none) :
    ∃ r w', Sem.Run (undisturbed c) (pvStoreCreate so host env path password recoveryKey) w
      (.ret r) w' ∧ r.1 = .ok ∧
      CreateResult so false env path password recoveryKey location w.fs r w'.fs := by
  refine returns_undisturbed (G := Acts c (Fs.Grows (Fs.components (parentPath path)))
    fun _ _ _ _ => True) ?_
  refine Sem.wp_then (wp_outside (ensureParentDirectory_spec onFiles_refl onFiles_trans fun _ _ h => h)) ?_
  rintro status w₁ ⟨hroams, -, -, hclean⟩
  have hfs : w₁.fs = w.fs := h.settled.grown habs hroams.grown
  have hunlocked : w₁.locks = [] := hroams.locks_eq.trans h.unlocked
  have halways : LeadsAlways (OnFiles fun a b : World => b = a) path location w.fs := by
    intro fs hrely
    have hsame : fs = w.fs := by
      clear hclean
      induction hrely with
      | refl => rfl
      | tail _ hstep ih =>
        obtain ⟨w₂, w₃, rfl, ha, rfl⟩ := hstep
        exact ha.trans ih
    rw [hsame]
    exact h.settled.leadsTo
  obtain ⟨rfl, -⟩ := hclean rfl habs location halways
  rw [if_neg fun hne => hne rfl]
  refine Sem.wp_mono (underLock_spec (neighbours_none c) (World.idle_unlocked hunlocked c)
    fun location' w₂ w₃ h₂ hat h₃ => createLocked_spec hinj ?_ (fun _ => trivial)
      fun _ _ _ _ _ _ _ => trivial) ?_
  · subst h₂ h₃
    rw [hfs] at hat ⊢
    rw [hat.unique h.settled.leadsTo.at]
    exact h.settled.tidy
  intro r w' hout
  rcases hout.alone with ⟨status, -, -, -, hwhy⟩ | ⟨location', hleads, hwork, -⟩
  · obtain ⟨l, hl, -⟩ := hwhy rfl location h.settled.short (hfs ▸ h.settled.leadsTo)
    rw [hunlocked] at hl
    cases hl
  · rw [hfs] at hleads hwork
    obtain rfl := hleads.at.unique h.settled.leadsTo.at
    exact ⟨(hwork.clean rfl h.noScratch hleads h.settled.short).2 vault header hdrawn hseal hfree, hwork⟩

/-- **Every history keeps the directory in order.** -/
theorem Timeline.orderly (hinj : Function.Injective so.generichash) (h : Timeline so c path w) :
    path.head? = some 0x2f ∧ ∃ location, w.Orderly path location := by
  induction h with
  | create h hrun => exact ⟨h.absolute, h.created hinj hrun⟩
  | again _ hrun ih =>
    obtain ⟨habs, location, horderly⟩ := ih
    exact ⟨habs, location, horderly.createdAgain hinj habs hrun⟩
  | save _ hpath hrun ih =>
    obtain ⟨habs, location, horderly⟩ := ih
    subst hpath
    exact ⟨habs, location, horderly.saved hinj hrun⟩
  | restore _ hrun ih =>
    obtain ⟨habs, location, horderly⟩ := ih
    exact ⟨habs, location, horderly.restored hrun⟩

/-- A handle that should be saved: it was changed, it is based on the active snapshot, and its
contents are within the limits. -/
structure Qualifies (so : Sodium Hash) (path : Bytes) (env : SaveEnv) (vault : Vault Hash)
    (header : FileHeader) (current : DiskFile Hash) (fs : Fs) : Prop where
  path_eq : vault.path = path
  dirty : vault.dirty = true
  usable : header.Usable
  granted : env.Granted
  limits : vault.WithinLimits env.now
  /-- a stored vault is in generation 1 or a later one -/
  stored : vault.generation ≠ 0
  based : ∃ location, fs.At path location ∧ fs.Shows so location.dir location.name current
  hash_eq : current.hash = vault.sourceHash
  vaultId_eq : current.header.vaultId = vault.vaultId

/-- The copy of the active snapshot has a place: the vault itself is not named `backups`, and the
name of its generation in `backups` is free, or shows the very snapshot. -/
def Fs.BackupClear (so : Sodium Hash) (path : Bytes) (vault : Vault Hash) (current : DiskFile Hash)
    (fs : Fs) : Prop :=
  ∀ location, fs.At path location → location.name ≠ backupsName ∧
    ∀ d, fs.lookup location.dir backupsName = some (.dir d) →
      fs.lookup d (autoBackupName vault.vaultId vault.generation.toNat) = none ∨
        fs.ShowsSame so d (autoBackupName vault.vaultId vault.generation.toNat) vault.vaultId current

section Saves

variable {env : SaveEnv} {vault : Vault Hash} {header : FileHeader} {current : DiskFile Hash}

omit [DecidableEq Hash] in
theorem Qualifies.isCurrent (h : w.Orderly path location)
    (hq : Qualifies so path env vault header current w.fs) : w.fs.Current so location vault current := by
  obtain ⟨location', hat, hshows⟩ := hq.based
  obtain rfl := hat.unique h.settled.leadsTo.at
  refine ⟨hshows, ?_, hq.hash_eq, hq.vaultId_eq⟩
  rcases h.settled.active with hnone | ⟨data, hholds⟩
  · obtain ⟨i, n, hlook, -⟩ := hshows
    exact absurd (hnone.symm.trans hlook) nofun
  · exact (hholds.reads hshows).2

omit [DecidableEq Hash] in
/-- In an orderly world the place of the copy is all that counts. -/
theorem Qualifies.backupFree_iff (h : w.Orderly path location)
    (hq : Qualifies so path env vault header current w.fs) {old : Slot} :
    w.fs.BackupFree so (savePlan so env location vault header false old) vault.vaultId current ↔
      w.fs.BackupClear so path vault current := by
  have hleads := h.settled.leadsTo.at
  constructor
  · rintro ⟨hhost, hfree⟩ location' hat
    obtain rfl := hat.unique hleads
    refine ⟨fun hname => ?_, hfree⟩
    obtain ⟨i, n, hlook, -⟩ := (hq.isCurrent h).shows
    rw [hname] at hlook
    rcases hhost with ⟨hnone, -⟩ | ⟨d, dir, hdir, -⟩
    · exact absurd (hnone.symm.trans hlook) nofun
    · exact absurd (hdir.symm.trans hlook) nofun
  · intro hclear
    obtain ⟨hname, hfree⟩ := hclear location hleads
    exact ⟨h.settled.hosts hname, hfree⟩

/-- What a save of a handle that should be saved comes to, in an orderly world. -/
theorem Qualifies.saves (hinj : Function.Injective so.generichash) (hso : so.Documented)
    {retention : Nat} {r : PvStatus × Vault Hash × FileHeader} (h : w.Orderly path location)
    (hretention : retention ≠ 0) (hq : Qualifies so path env vault header current w.fs)
    (hrun : Sem.Run (undisturbed c) (pvStoreSave so host env vault header retention) w (.ret r) w') :
    (r.1 = .ok ↔ w.fs.BackupClear so path vault current) ∧
    ∀ d existing, w.fs.lookup location.dir backupsName = some (.dir d) →
      w.fs.Shows so d (autoBackupName vault.vaultId vault.generation.toNat) existing →
      existing.hash ≠ current.hash → r.1 = .errExists := by
  obtain rfl := hq.path_eq
  obtain ⟨hwork, -⟩ := h.saves hinj hq.dirty hretention hrun
  have hclean := hwork.clean rfl h.noScratch.roomy h.settled.leadsTo h.settled.short
  have hcurrent := hq.isCurrent h
  obtain ⟨hok, htaken⟩ := hclean.saved rfl (hq.limits.sealable hso hq.granted hq.usable) hq.stored current
    hcurrent
  refine ⟨hok.trans (hq.backupFree_iff h), fun d existing hdir hshows hother => ?_⟩
  refine htaken d existing (h.settled.hosts fun hname => ?_) hdir hshows ?_
  · obtain ⟨i, n, hlook, -⟩ := hcurrent.shows
    rw [hname] at hlook
    exact absurd (hdir.symm.trans hlook) nofun
  · rintro ⟨existing', hshows', -, hsame⟩
    rw [hshows'.unique hshows] at hsame
    exact hother hsame

end Saves

end Histories

end PVault
