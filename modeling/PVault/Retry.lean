import PVault.Crash

/-!
# Trying again (`src/store.c`)

A save that fails before it commits takes the new generation back, but it may leave traces on
disk: a temporary, the directory `backups`, the copy of the active file. None of them keeps the
next save from going well.

* `Plan.Prepares.shows`, `Plan.Prepares.backupFree` — the traces hide no snapshot, and the copy
  of the active file counts as made.
* `Session.Ready.failed` — a failed save leaves the handle ready for the next one.
* `failed_save_can_be_retried` — whatever has failed before, a save without faults succeeds.
-/

namespace PVault

open Binary Conc

/-! ## What a failed save leaves -/

section Prepared

variable {Hash : Type} {so : Sodium Hash} {plan : Plan} {a b : Fs} {vaultId : Block pvVaultIdBytes}
  {current : DiskFile Hash}

theorem Fs.canHost_iff {fs : Fs} {parent : Nat} {name : Bytes} : fs.CanHost parent name ↔
    fs.lookup parent name = none ∧ parent < fs.dirs.length ∨
      ∃ d st, fs.lookup parent name = some (.dir d) ∧ fs.statDir d = some st ∧ st.own = true := by
  refine or_congr_right ⟨fun ⟨d, dir, hlook, hdir, hown⟩ => ?_, fun ⟨d, st, hlook, hst, hown⟩ => ?_⟩
  · exact ⟨d, ⟨dir.own, dir.mode⟩, hlook, by rw [Fs.statDir, hdir]; rfl, hown⟩
  · obtain ⟨dir, hdir, rfl⟩ := Option.map_eq_some_iff.mp hst
    exact ⟨d, dir, hlook, hdir, hown⟩

namespace Plan

/-- A snapshot under a finished name is shown as before: new names were free. -/
theorem Prepares.shows {d : Nat} {name : Bytes} {disk : DiskFile Hash} (h : plan.Prepares a b)
    (htidy : a.Tidy plan.location) (hname : ¬Scratch plan.location d name)
    (hshows : a.Shows so d name disk) : b.Shows so d name disk := by
  obtain ⟨i, n, hlook, hn, hshown⟩ := hshows
  obtain ⟨m, hm, hpub⟩ := htidy d name hname i hlook
  obtain rfl : n = m := Option.some.inj (hn.symm.trans hm)
  have hbound : a.lookup d name ≠ none := by
    rw [hlook]
    exact nofun
  cases h with
  | quiet h =>
    exact ⟨i, n, (h.lookup_eq d name hname).trans hlook, (h.inode_iff i n hpub).mpr hn, hshown⟩
  | made _ h =>
    exact ⟨i, n, (h.lookup_eq d name (.inl hbound)).trans hlook, by rw [h.inodes_eq, hn], hshown⟩
  | backup _ _ _ hfree h =>
    obtain ⟨n', hn', -, hsame⟩ := h.old i n hpub hn
    rw [hsame (by rw [hfree]; exact nofun)] at hn'
    refine ⟨i, n, (h.lookup_ne d name hname fun heq => hbound ?_).trans hlook, hn', hshown⟩
    obtain ⟨rfl, rfl⟩ := Prod.mk.inj heq
    exact hfree

/-- There is still room for the directory of backups. -/
theorem Prepares.canHost (h : plan.Prepares a b) (ha : a.CanHost plan.location.dir backupsName) :
    b.CanHost plan.location.dir backupsName := by
  have hlen : plan.location.dir < a.dirs.length → plan.location.dir < b.dirs.length := fun hlt => by
    obtain ⟨st, hst⟩ : ∃ st, a.statDir plan.location.dir = some st := by
      rw [Fs.statDir, List.getElem?_eq_getElem hlt]
      exact ⟨_, rfl⟩
    exact Fs.dir_lt (h.step.statDir_eq.trans hst)
  rw [Fs.canHost_iff] at ha ⊢
  rcases ha with ⟨hnone, hlt⟩ | ⟨d, st, hdir, hst, hown⟩
  · cases h with
    | quiet h => exact .inl ⟨(h.lookup_eq _ _ not_scratch_backups).trans hnone, hlen hlt⟩
    | made _ h =>
      rcases h.lookup_cases with hsame | ⟨e, he, -⟩
      · exact .inl ⟨hsame.trans hnone, hlen hlt⟩
      · exact .inr ⟨e, _, he, h.new_private e hnone he, rfl⟩
    | backup _ _ hdir => exact absurd (hnone.symm.trans hdir) (Option.some_ne_none _).symm
  · refine .inr ?_
    have hdir' := h.step.evolves.dir_mono _ _ _ hdir
    cases h with
    | quiet h => exact ⟨d, st, hdir', (h.statDir_eq d).trans hst, hown⟩
    | made _ h =>
      obtain ⟨st', hst', hsame⟩ := h.own_eq d st hst
      exact ⟨d, st', hdir', hst', hsame.trans hown⟩
    | backup _ _ _ _ h => exact ⟨d, st, hdir', (h.statDir_eq d).trans hst, hown⟩

/-- The name for the copy is still free, or shows the copy. -/
theorem Prepares.backupFree (h : plan.Prepares a b) (htidy : a.Tidy plan.location)
    (hold : plan.old = .holds current.bytes) (hreads : current.Reads so current.bytes)
    (hid : current.header.vaultId = vaultId) (ha : a.BackupFree so plan vaultId current) :
    b.BackupFree so plan vaultId current := by
  refine ⟨h.canHost ha.1, fun d hdir => ?_⟩
  have hname : ¬Scratch plan.location d plan.backup := not_scratch_snapshot plan.backup_snapshot
  have hstays : a.ShowsSame so d plan.backup vaultId current →
      b.ShowsSame so d plan.backup vaultId current :=
    fun ⟨existing, hshows, hsame⟩ => ⟨existing, h.shows htidy hname hshows, hsame⟩
  cases h with
  | quiet h =>
    rw [h.lookup_eq d plan.backup hname]
    exact (ha.2 d ((h.dir_iff _ _ d).mp hdir)).imp_right hstays
  | made _ h =>
    rcases h.lookup_backup hdir plan.backup with ⟨hdir', hsame⟩ | hfree
    · rw [hsame]
      exact (ha.2 d hdir').imp_right hstays
    · exact .inl hfree
  | @backup d' i data hold' _ hdir' _ h =>
    -- this step has made the copy
    obtain rfl : d' = d := by
      rw [(h.dir_iff _ _ d').mpr hdir'] at hdir
      cases hdir
      rfl
    obtain rfl : current.bytes = data := Slot.holds.inj (hold.symm.trans hold')
    have hholds : b.HoldsPrivate ⟨d', plan.backup⟩ current.bytes := ⟨i, h.lookup_eq, h.inode_eq⟩
    obtain ⟨st, -, hshows⟩ := hholds.shows hreads
    exact .inr ⟨_, hshows, hid, rfl⟩

/-- All this together, for any number of preparations. -/
theorem Preparations.ready (h : plan.Preparations a b) (htidy : a.Tidy plan.location)
    (hold : plan.old = .holds current.bytes) (hreads : current.Reads so current.bytes)
    (hid : current.header.vaultId = vaultId)
    (hshows : a.Shows so plan.location.dir plan.location.name current)
    (hfree : a.BackupFree so plan vaultId current) :
    b.Tidy plan.location ∧ b.Shows so plan.location.dir plan.location.name current ∧
      b.BackupFree so plan vaultId current := by
  induction h with
  | refl => exact ⟨htidy, hshows, hfree⟩
  | tail _ hstep ih =>
    obtain ⟨htidy, hshows, hfree⟩ := ih
    exact ⟨hstep.step.tidy htidy, hstep.shows htidy not_scratch_active hshows,
      hstep.backupFree htidy hold hreads hid hfree⟩

end Plan

end Prepared

/-! ## Handles -/

section Limits

variable {Hash : Type} {so : Sodium Hash} {env : SaveEnv} {vault : Vault Hash} {header : FileHeader}

/-- All the memory a save asks for is granted. -/
structure SaveEnv.Granted (env : SaveEnv) : Prop where
  encode_eq : env.encode = true
  body_eq : env.body = .granted

/-- The vault can be written at that time: there is a next generation, its records and times are
valid, and they fit the largest file. -/
structure Vault.WithinLimits (vault : Vault Hash) (now : Int64) : Prop where
  bounded : vault.generation.toNat ≠ 2 ^ 64 - 1
  valid : (vault.stamped now).payload.Valid
  fits : (payloadBytes (vault.stamped now).payload).length ≤ pvMaxPlaintext - 4

/-- The encoding of such a vault is encrypted. -/
theorem Vault.WithinLimits.sealVault_eq (h : vault.WithinLimits env.now) (hgranted : env.Granted) :
    sealVault so env (vault.stamped env.now) header = pvCryptoEncryptBody so header vault.vmk
      (payloadBytes (vault.stamped env.now).payload) env.draws .granted := by
  have hencode : pvCborEncode (vault.stamped env.now) env.encode =
      (.ok, payloadBytes (vault.stamped env.now).payload) := by
    rw [hgranted.encode_eq]
    exact (pvCborEncode_valid h.valid).trans (if_pos (Nat.le_trans h.fits (Nat.sub_le _ _)))
  simp only [sealVault, hencode, hgranted.body_eq]
  rfl

theorem Vault.WithinLimits.sealable (hso : so.Documented) (h : vault.WithinLimits env.now)
    (hgranted : env.Granted) (husable : header.Usable) : vault.Sealable so env header where
  bounded := h.bounded
  usable := husable
  sealed_ok := by
    have hne : payloadBytes (vault.stamped env.now).payload ≠ [] := fun hnil =>
      payloadBytes_ne_nil _ (by rw [hnil, List.length_nil])
    obtain ⟨header', ciphertext, hencrypt, -⟩ := pvCryptoEncryptBody_fits hso header vault.vmk
      env.draws hne h.fits
    rw [h.sealVault_eq hgranted, hencrypt]

end Limits

section Sessions

variable {Hash : Type} {so : Sodium Hash} {c : Nat}

/-- A handle, and the world it is used in. -/
structure Session (Hash : Type) where
  vault : Vault Hash
  header : FileHeader
  world : World

/-- A save that failed before it committed, whatever the reason: any call may have failed, any
memory may have been refused. -/
def FailedSave [DecidableEq Hash] (so : Sodium Hash) (c : Nat) (s s' : Session Hash) : Prop :=
  ∃ host env retention status, retention ≠ 0 ∧ ¬status.Committed ∧
    Sem.Run (alone c) (pvStoreSave so host env s.vault s.header retention) s.world
      (.ret (status, s'.vault, s'.header)) s'.world

/-- **A handle that can be saved**: it was changed, its base is the active file, and the name for
the copy of that file is not taken by another entry. -/
structure Session.Ready (so : Sodium Hash) (c : Nat) (location : Location) (current : DiskFile Hash)
    (name : Bytes) (s : Session Hash) : Prop where
  dirty : s.vault.dirty = true
  usable : s.header.Usable
  leadsTo : s.world.fs.LeadsTo s.vault.path location
  short : location.name.length + 13 < pathMax
  idle : s.world.Idle c
  unlocked : ∀ l ∈ s.world.locks, l.location ≠ location
  tidy : s.world.fs.Tidy location
  based : s.world.fs.Current so location s.vault current
  /-- the generation has a name for its backup -/
  named : formatAutomaticBackupName s.vault.vaultId s.vault.generation = .ok name
  hosts : s.world.fs.CanHost location.dir backupsName
  free : ∀ d, s.world.fs.lookup location.dir backupsName = some (.dir d) →
    s.world.fs.lookup d name = none ∨ s.world.fs.ShowsSame so d name s.vault.vaultId current

variable {s : Session Hash} {location : Location} {name : Bytes} {w : World} {fs : Fs}
  {current : DiskFile Hash} {vaultId : Block pvVaultIdBytes}

/-- The place for the copy, as a save sees it. -/
theorem Session.Ready.backupFree (h : s.Ready so c location current name) (env : SaveEnv)
    (header : FileHeader) (old : Slot) :
    s.world.fs.BackupFree so (savePlan so env location s.vault header false old)
      s.vault.vaultId current := by
  obtain ⟨-, rfl⟩ := formatAutomaticBackupName_ok h.named
  exact ⟨h.hosts, h.free⟩

/-- A client without locks holds none of those there are. -/
theorem World.Idle.client_ne {l : Lock} (h : w.Idle c) (hl : l ∈ w.locks) : l.client ≠ c := by
  intro hc
  have hmem : l ∈ w.locksOf c := List.mem_filter.mpr ⟨hl, beq_iff_eq.mpr hc⟩
  rw [h] at hmem
  cases hmem

/-- A client takes no lock but its own. -/
theorem Acts.mine {outside : Fs → Fs → Prop} {work : Location → Fs → Fs → Fs → Prop} {w' : World}
    {l : Lock} (h : Acts c outside work w w') (hl : l ∈ w'.locks) : l.client = c ∨ l ∈ w.locks := by
  cases h with
  | idle => exact .inr hl
  | outside => exact .inr hl
  | acquire =>
    rcases List.mem_cons.mp hl with rfl | hl
    · exact .inl rfl
    · exact .inr hl
  | work => exact .inr hl
  | release => exact .inr (List.mem_filter.mp hl).1

/-- **A failed save leaves the handle ready for the next one.** -/
theorem Session.Ready.failed [DecidableEq Hash] (hinj : Function.Injective so.generichash)
    {s' : Session Hash} (h : s.Ready so c location current name) (hfailed : FailedSave so c s s') :
    s'.Ready so c location current name ∧ s'.vault = s.vault := by
  obtain ⟨host, env, retention, status, hretention, hbad, hrun⟩ := hfailed
  have hspec : (system true c (fun a b => b = a) (Acts c (fun _ _ => False) fun _ _ _ _ => True)).wp
      (pvStoreSave so host env s.vault s.header retention)
      (LockOutcome true c (fun a b => b = a) s.vault.path (fun status => (status, s.vault, s.header))
        (SaveWork so host true env s.vault s.header) s.world) s.world := by
    refine pvStoreSave_spec (neighbours_none c) h.idle hinj ?_ h.dirty hretention
      (fun _ _ _ => trivial) fun _ _ _ _ _ _ _ => trivial
    rintro w₀ w₁ location' rfl hat rfl
    rw [hat.unique h.leadsTo.at]
    exact h.tidy
  have hmine : ∀ l ∈ s'.world.locks, l.client = c ∨ l ∈ s.world.locks := by
    refine kept_alone (J := fun w => ∀ l ∈ w.locks, l.client = c ∨ l ∈ s.world.locks) hspec ?_
      (fun l hl => .inr hl) hrun
    exact fun w₁ w₂ hacts h₁ l hl => (hacts.mine hl).elim .inl (h₁ l)
  obtain ⟨vault', header', w'⟩ := s'
  rcases (returned_alone hspec hrun).alone with ⟨status', heq, rfl, -⟩ | ⟨location', hleads, hwork, hidle⟩
  · cases heq
    exact ⟨h, rfl⟩
  obtain rfl := hleads.at.unique h.leadsTo.at
  obtain ⟨rfl, hprepared⟩ := hwork.refused hbad
  obtain ⟨nonce, len, rfl⟩ := hwork.header_eq
  have hreads : current.Reads so current.bytes := by
    obtain ⟨i, n, -, -, -, hreads, -⟩ := h.based.shows
    exact hreads.bytes_eq ▸ hreads
  obtain ⟨htidy, hshows, hfree⟩ := hprepared.ready h.tidy h.based.shows.slot_eq hreads
    h.based.vaultId_eq h.based.shows (h.backupFree env _ _)
  refine ⟨⟨h.dirty, h.usable.withBody, hprepared.steps.leadsTo h.leadsTo, h.short, hidle, fun l hl => ?_,
    htidy, { h.based with shows := hshows }, h.named, hfree.1, ?_⟩, rfl⟩
  · rcases hmine l hl with hc | hl
    · exact absurd hc (hidle.client_ne hl)
    · exact h.unlocked l hl
  · obtain ⟨-, rfl⟩ := formatAutomaticBackupName_ok h.named
    exact hfree.2

/-- Any number of failed saves leave it so. -/
theorem Session.Ready.allFailed [DecidableEq Hash] (hinj : Function.Injective so.generichash)
    {s' : Session Hash} (h : s.Ready so c location current name)
    (hfailed : Relation.ReflTransGen (FailedSave so c) s s') :
    s'.Ready so c location current name ∧ s'.vault = s.vault := by
  induction hfailed with
  | refl => exact ⟨h, rfl⟩
  | tail _ hstep ih =>
    obtain ⟨hready, hvault⟩ := ih
    obtain ⟨hready', hvault'⟩ := hready.failed hinj hstep
    exact ⟨hready', hvault'.trans hvault⟩

/-- The client `c` by itself, and no call fails. -/
abbrev undisturbed (c : Nat) : Sem SysRes World := system false c (fun a b => b = a) fun _ _ => True

/-- In a directory that shows a snapshot under the name of its generation, that is the only entry
for the generation. -/
theorem Fs.only_entry {d : Nat} {generation : UInt64} {data : Bytes}
    (hnamed : formatAutomaticBackupName vaultId generation = .ok name)
    (hslot : fs.slot d name = .holds data) (entry : Bytes) :
    fs.lookup d entry ≠ none ∧ parseAutomaticBackupName entry = some (vaultId, generation.toNat) ↔
      entry = name := by
  obtain ⟨hne, rfl⟩ := formatAutomaticBackupName_ok hnamed
  refine ⟨fun h => format_of_parse h.2, ?_⟩
  rintro rfl
  obtain ⟨i, hlook⟩ := Fs.lookup_of_holds hslot
  refine ⟨by rw [hlook]; exact nofun, parseAutomaticBackupName_format ?_ ?_⟩
  · exact Nat.pos_of_ne_zero fun hzero => hne (UInt64.toNat_inj.mp hzero)
  · exact Nat.le_pred_of_lt generation.toNat_lt

/-- **A failed save can be retried.** However many saves have failed, whatever they failed of, the
next one succeeds if nothing fails: memory is granted, and each temporary gets a free name in one
of its 32 draws (earlier failures may have left temporaries behind). -/
theorem failed_save_can_be_retried [DecidableEq Hash] (hinj : Function.Injective so.generichash)
    (hso : so.Documented) {s s' : Session Hash} {location : Location} {current : DiskFile Hash}
    {name : Bytes} (hready : s.Ready so c location current name)
    (hfailed : Relation.ReflTransGen (FailedSave so c) s s') {host : Host} {env : SaveEnv}
    {retention : Nat} (hretention : retention ≠ 0) (hlimits : s.vault.WithinLimits env.now)
    (hgranted : env.Granted) (hfree : host.Free s'.world.fs location.dir location.name)
    (hfree' : ∀ d, s'.world.fs.lookup location.dir backupsName = some (.dir d) →
      host.Free s'.world.fs d name) :
    (undisturbed c).wp (pvStoreSave so host env s'.vault s'.header retention)
      (fun r w' => r.1 = .ok ∧ r.2.1.generation.toNat = s.vault.generation.toNat + 1 ∧
        ∃ d, w'.fs.lookup location.dir backupsName = some (.dir d) ∧
          w'.fs.slot d name = .holds current.bytes ∧
          ∀ entry, w'.fs.lookup d entry ≠ none ∧
            parseAutomaticBackupName entry = some (s.vault.vaultId, s.vault.generation.toNat) ↔
              entry = name) s'.world := by
  obtain ⟨hready', hvault⟩ := hready.allFailed hinj hfailed
  rw [← hvault] at hlimits ⊢
  obtain ⟨hpos, rfl⟩ := formatAutomaticBackupName_ok hready'.named
  have hsave := pvStoreSave_succeeds hinj hready'.idle hready'.dirty hretention
    ⟨hready'.leadsTo, hready'.tidy, hready'.unlocked, hready'.short, hfree, hfree'⟩
    hready'.based (hlimits.sealable hso hgranted hready'.usable) hpos (hready'.backupFree env _ _)
  refine Sem.wp_mono (Sem.wp_sub ?_ ?_ ?_ ?_ hsave) ?_
  · exact fun _ _ _ _ h => h
  · exact fun _ _ h => h
  · exact fun _ _ _ => trivial
  · exact fun h => h
  rintro r w' ⟨hok, hwork, -⟩
  have hdone := hwork.committed (.inl hok)
  obtain ⟨data, hactive, -, d, hdir, hslot⟩ := hdone.replaced rfl
  obtain ⟨-, -, -, hgeneration, -⟩ := hdone.sealed
  obtain rfl : current.bytes = data :=
    Slot.holds.inj (hready'.based.shows.slot_eq.symm.trans hactive)
  rw [hgeneration, stamped_generation env.now hlimits.bounded]
  exact ⟨hok, rfl, d, hdir, hslot, Fs.only_entry hready'.named hslot⟩

/-- A handle on the only file, in a directory without `backups`. -/
def emptySession : Session Bytes := ⟨emptyHandle 1 0, backupHeader, ⟨onlyVault 1 0, [], []⟩⟩

theorem emptySession_ready : ∃ current,
    emptySession.Ready Sodium.toy 0 vaultPlace current (autoBackupName backupHeader.vaultId 1) := by
  obtain ⟨current, hcurrent⟩ := onlyVault_current 1 0
  have hfree : (onlyVault 1 0).BackupFree Sodium.toy (savePlan Sodium.toy (readyEnv 5) vaultPlace
      (emptyHandle 1 0) backupHeader false .absent) backupHeader.vaultId current :=
    onlyVault_backupFree 1 0 rfl
  exact ⟨current, rfl, backupHeader_usable, onlyVault_leadsTo 1 0, by decide, rfl, nofun,
    fun d name _ => onlyVault_finished 1 0 d name, hcurrent, rfl, hfree.1, hfree.2⟩

/-- A run on files is one of a client. -/
theorem Run.lifted {α : Type} {G : Fs → Fs → Prop} {p p' : FileM α} {fs' : Fs}
    (h : Sem.Run (files true Alone G) p fs p' fs') (hw : w.fs = fs) :
    Sem.Run (alone c) (onFiles p) w (onFiles p') { w with fs := fs' } := by
  induction h generalizing w with
  | refl =>
    subst hw
    exact .refl _ _
  | env hrely _ ih =>
    obtain rfl := hrely
    exact ih hw
  | call hstep _ ih =>
    subst hw
    exact .call (.file hstep) (ih rfl)

theorem Run.exists_clean {α : Type} {p : FileM α} {Q : α → Fs → Prop}
    (h : (files false Alone fun _ _ => True).wp p Q fs) :
    ∃ a fs', Sem.Run (files true Alone fun _ _ => True) p fs (.ret a) fs' ∧ Q a fs' := by
  obtain ⟨a, fs', hrun, hq⟩ := returns_files h
  exact ⟨a, fs', hrun.sub (fun _ _ _ _ h => h.mayFail) fun _ _ h => h, hq⟩

/-- A save of the only file can make the copy, and then fail: its directory cannot be opened
again. -/
theorem saveLocked_fails_late {current : DiskFile Bytes}
    (hcurrent : (onlyVault 1 0).Current Sodium.toy vaultPlace (emptyHandle 1 0) current) :
    ∃ header fs', Sem.Run (files true Alone fun _ _ => True)
        (saveLocked Sodium.toy plainHost (readyEnv 5) vaultPlace (emptyHandle 1 0) backupHeader
          1 false) (onlyVault 1 0) (.ret (.errLocked, emptyHandle 1 0, header)) fs' ∧
      fs'.NoScratch vaultPlace ∧ ∃ d, fs'.lookup 0 backupsName = some (.dir d) ∧
        fs'.slot d (autoBackupName backupHeader.vaultId 1) = .holds current.bytes := by
  obtain ⟨i, n, hlook, hn, -⟩ := hcurrent.shows
  -- the active file is found and read
  have hexists : (files false Alone fun _ _ => True).wp (pathEntryExistsAt 0 vaultPlace.name) _
      (onlyVault 1 0) := pathEntryExistsAt_spec fun _ => trivial
  obtain ⟨_, _, hfound, rfl, -, -, hyes⟩ := Run.exists_clean hexists
  obtain rfl := hyes rfl i n hlook hn
  have hdisk : (files false Alone fun _ _ => True).wp
      (readDiskFileAt Sodium.toy plainHost 0 vaultPlace.name) _ (onlyVault 1 0) :=
    readDiskFileAt_alone _ _ fun _ => trivial
  obtain ⟨r, _, hread, rfl, hok, hbad⟩ := Run.exists_clean hdisk
  obtain rfl : r = .ok current := by
    cases r with
    | error status => exact absurd hcurrent.shows ((hbad status rfl).2 rfl current)
    | ok disk => rw [(hok disk rfl).unique hcurrent.shows]
  -- the copy is made
  have hcopy : (files false Alone fun _ _ => True).wp (backupCurrent Sodium.toy plainHost
      vaultPlace (emptyHandle 1 0).vaultId (emptyHandle 1 0).generation (some current))
      (CopyTaken Sodium.toy plainHost false (savePlan Sodium.toy (readyEnv 5) vaultPlace
        (emptyHandle 1 0) backupHeader false ((onlyVault 1 0).active vaultPlace)) (emptyHandle 1 0)
        (some current) (onlyVault 1 0)) (onlyVault 1 0) :=
    backupCurrent_spec Sodium.toy_injective (fun _ h => Option.some.inj h ▸ ⟨rfl, hcurrent⟩)
      (fun d name _ => onlyVault_finished 1 0 d name) fun _ _ _ => trivial
  obtain ⟨⟨status, backups⟩, fs₁, hbackup, hcopied⟩ := Run.exists_clean hcopy
  obtain rfl : status = .ok :=
    (hcopied.clean rfl (onlyVault_noScratch 1 0).roomy (by decide) current rfl).ok
      (onlyVault_backupFree 1 0 rfl)
  obtain ⟨-, d, hdir, hslot⟩ := hcopied.copied rfl current rfl
  -- the directory cannot be opened again
  have hseal := (emptyHandle_sealable 1 0 5 (by decide) (by decide)).sealed_ok
  generalize hsealed : sealVault Sodium.toy (readyEnv 5) _ backupHeader = sealed at hseal
  obtain ⟨status, header, ciphertext⟩ := sealed
  obtain rfl : status = .ok := hseal
  have habandon : (files false Alone fun _ _ => True).wp (abandonSave backups .errLocked
      ((emptyHandle 1 0).stamped (readyEnv 5).now) (emptyHandle 1 0).updatedMs header) _ fs₁ :=
    abandonSave_spec fun _ => trivial
  obtain ⟨_, _, hend, rfl, rfl⟩ := Run.exists_clean habandon
  refine ⟨header, _, ?_, hcopied.noScratch rfl (onlyVault_noScratch 1 0), d, hdir, hslot⟩
  rw [saveLocked, if_neg (by decide)]
  refine (hfound.bind _).trans ((hread.bind _).trans ?_)
  show Sem.Run _ (if current.stat.mode ≠ 0o600 then _ else _) _ _ _
  rw [if_neg (not_not.mpr hcurrent.mode_eq), if_neg (not_or.mpr ⟨not_not.mpr hcurrent.hash_eq,
    not_not.mpr hcurrent.vaultId_eq⟩), commitSave, hsealed]
  exact (hbackup.bind _).trans (.call (Fs.Step.fails _ _ .other rfl) hend)

/-- The lock of the only file is taken. -/
theorem lockVault_onlyVault (c : Nat) : Sem.Run (undisturbed c) (lockVault vaultPath)
    ⟨onlyVault 1 0, [], []⟩ (.ret (.ok vaultPlace))
    ⟨onlyVault 1 0, [⟨vaultPlace, c, onlyVault 1 0⟩], []⟩ := by
  have hwp : (system false c (fun a b => b = a) (Acts c (fun _ _ => True) fun _ _ _ _ => True)).wp
      (lockVault vaultPath) _ ⟨onlyVault 1 0, [], []⟩ := lockVault_spec (neighbours_none c) rfl
  obtain ⟨r, w, hrun, hlock⟩ := Sem.exists_run (fun _ => rfl) (show ¬false = true by decide)
    (World.Step.answers false c) hwp
  cases r with
  | error status =>
    obtain ⟨-, -, hheld⟩ := hlock
    obtain ⟨-, _, rfl, l, hl, -⟩ := hheld rfl vaultPlace (by decide) fun w₁ h => by
      subst h
      exact onlyVault_leadsTo 1 0
    cases hl
  | ok location =>
    obtain ⟨_, _, rfl, hat, -, rfl, -, rfl⟩ := hlock
    obtain rfl := hat.unique (onlyVault_leadsTo 1 0).at
    exact hrun.sub (fun _ _ _ _ h => h) fun _ _ h => h

/-- The whole save. -/
theorem emptySession_failed : ∃ current s',
    emptySession.Ready Sodium.toy 0 vaultPlace current (autoBackupName backupHeader.vaultId 1) ∧
    FailedSave Sodium.toy 0 emptySession s' ∧ s'.world.fs.NoScratch vaultPlace ∧
    ∃ d, s'.world.fs.lookup 0 backupsName = some (.dir d) ∧
        s'.world.fs.slot d (autoBackupName backupHeader.vaultId 1) = .holds current.bytes := by
  obtain ⟨current, hready⟩ := emptySession_ready
  obtain ⟨header, fs', hsave, hleft⟩ := saveLocked_fails_late hready.based
  have hlock : Sem.Run (alone 0) (lockVault vaultPath) _ _ _ :=
    (lockVault_onlyVault 0).sub (fun _ _ _ _ h => h.mayFail) fun _ _ h => h
  refine ⟨current, ⟨emptyHandle 1 0, header, _⟩, hready, ⟨plainHost, readyEnv 5, 1, .errLocked,
    Nat.one_ne_zero, by decide, (hlock.bind _).trans (((Run.lifted hsave rfl).bind _).trans
      (.call (.unlock _ _) (.call (.closeLock _ _ (.ok ()) fun _ => rfl)
        (.call (.file (Fs.Step.acts _ _)) (.refl _ _)))))⟩, hleft⟩

/-- After a save that failed with the copy made, the next one. -/
theorem failed_save_can_be_retried_once : ∃ current s',
    emptySession.Ready Sodium.toy 0 vaultPlace current (autoBackupName backupHeader.vaultId 1) ∧
    FailedSave Sodium.toy 0 emptySession s' ∧
    (∃ d, s'.world.fs.lookup 0 backupsName = some (.dir d) ∧
      s'.world.fs.slot d (autoBackupName backupHeader.vaultId 1) = .holds current.bytes) ∧
    (undisturbed 0).wp (pvStoreSave Sodium.toy plainHost (readyEnv 5) s'.vault s'.header 1)
      (fun r w' => r.1 = .ok ∧ r.2.1.generation.toNat = 2 ∧
        ∃ d, w'.fs.lookup 0 backupsName = some (.dir d) ∧
          w'.fs.slot d (autoBackupName backupHeader.vaultId 1) = .holds current.bytes ∧
          ∀ entry, w'.fs.lookup d entry ≠ none ∧
            parseAutomaticBackupName entry = some (backupHeader.vaultId, 1) ↔
              entry = autoBackupName backupHeader.vaultId 1) s'.world := by
  obtain ⟨current, s', hready, hfailed, hnone, hcopy⟩ := emptySession_failed
  have hroomy : (savePlan Sodium.toy (readyEnv 5) vaultPlace (emptyHandle 1 0) backupHeader false
      .absent).Roomy plainHost s'.world.fs := hnone.roomy
  exact ⟨current, s', hready, hfailed, hcopy, failed_save_can_be_retried Sodium.toy_injective
    Sodium.toy_documented hready (.single hfailed) Nat.one_ne_zero
    ⟨by decide, emptyHandle_valid 1 0 5 (by decide), length_emptyPayload 2 5⟩ ⟨rfl, rfl⟩ hroomy.1
    hroomy.2⟩

end Sessions

end PVault
