import PVault.Prune

/-!
# Backup and rescue copies (`src/store.c`)

`pv_store_backup` and `pv_store_recover_authenticated` read a snapshot a second time after it
was authenticated, compare its hash with the authenticated one and publish exactly the bytes
they read under a name that was free.

`copies_are_authenticated` holds at every point of every run: nothing that was there is
touched, a reported success is a new private file with the authenticated hash, and a reported
failure left no trace.
-/

namespace PVault

open Binary Conc

/-! ## The programs -/

/-- A success counts only if the path still leads to the location. -/
def confirmLocation (path : Bytes) (location : Location) (status : PvStatus) : FileM PvStatus :=
  if status = .ok then do
    let valid ← revalidateStoreLocation path location
    return if valid ≠ .ok then .errDurability else .ok
  else
    return status

/-- `write_snapshot_exclusive`. -/
def writeSnapshotExclusive (host : Host) (destination : Bytes) (header : Block pvFileHeaderLen)
    (ciphertext : Bytes) (finalMode : Nat) : FileM PvStatus := do
  match ← openStoreLocation destination with
  | .error status => return status
  | .ok location =>
    let status ←
      writeSnapshotExclusiveAt host location.dir location.name header ciphertext finalMode
    let status ← confirmLocation destination location status
    closeStoreLocation
    return status

section Copying

variable {Hash : Type} [DecidableEq Hash] (so : Sodium Hash) (host : Host)

/-- `write_exact_snapshot_copy`. -/
def writeExactSnapshotCopy (source : DiskFile Hash) (outputPath : Bytes) (finalMode : Nat) :
    FileM PvStatus :=
  if ¬privateMode finalMode then
    return .errUsage
  else do
    let status ←
      writeSnapshotExclusive host outputPath source.headerBytes source.ciphertext finalMode
    if status = .ok ∨ status = .errDurability then
      match ← readDiskFile so host outputPath with
      | .error _ => return .errDurability
      | .ok recovered =>
        if recovered.ciphertext.length ≠ source.ciphertext.length ∨
            recovered.headerBytes ≠ source.headerBytes ∨
            recovered.ciphertext ≠ source.ciphertext ∨ recovered.hash ≠ source.hash ∨
            recovered.stat.mode ≠ finalMode then
          return .errDurability
        else
          return status
    else
      return status

/-- `pv_store_backup`. -/
def pvStoreBackup (vaultPath outputPath : Bytes) (expectedHash : Option Hash) : FileM PvStatus := do
  match ← readDiskFile so host vaultPath with
  | .error status => return status
  | .ok disk =>
    if expectedHash.any (· ≠ disk.hash) then
      return .errAuth
    else
      writeExactSnapshotCopy so host disk outputPath 0o600

/-- `pv_store_recover_authenticated`. -/
def pvStoreRecoverAuthenticated (snapshotPath outputPath : Bytes) (expectedHash : Hash) :
    FileM PvStatus := do
  match ← readDiskFile so host snapshotPath with
  | .error status => return status
  | .ok source =>
    if source.hash ≠ expectedHash then
      return .errAuth
    else
      writeExactSnapshotCopy so host source outputPath 0o400

end Copying

/-! ## What is left alone -/

/-- Every name that was there is bound to the same file as it was. -/
def Fs.Spares (a b : Fs) : Prop :=
  ∀ d name node, a.lookup d name = some node →
    b.lookup d name = some node ∧ ∀ i, node = .file i → b.inodes[i]? = a.inodes[i]?

theorem Fs.Spares.refl (a : Fs) : a.Spares a := fun _ _ _ h => ⟨h, fun _ _ => rfl⟩

/-- Every name leads to a finished file: what was there at the start counts as published. -/
def Fs.Finished (fs : Fs) : Prop := ∀ d name, fs.Kept d name

/-- The names that are free and have the form of a temporary for `name`. -/
def Fs.FreeTemporary (fs : Fs) (name : Bytes) (d : Nat) (other : Bytes) : Prop :=
  fs.lookup d other = none ∧ ∃ suffix, other = temporaryName name suffix

theorem Fs.not_freeTemporary {fs : Fs} {name : Bytes} {d : Nat} : ¬fs.FreeTemporary name d name := by
  rintro ⟨-, suffix, h⟩
  exact temporaryName_ne name suffix h.symm

theorem Fs.Quiet.spares {fs a b : Fs} {name : Bytes} (hkept : fs.Finished)
    (h : Fs.Quiet (fs.FreeTemporary name) a b) (ha : fs.Spares a) : fs.Spares b := by
  intro d other node hlook
  obtain ⟨hlook', hinode⟩ := ha d other node hlook
  refine ⟨?_, ?_⟩
  · rw [h.lookup_eq d other, hlook']
    intro hfree
    rw [hfree.1] at hlook
    cases hlook
  · rintro i rfl
    obtain ⟨n, hn, hpub⟩ := hkept d other i hlook
    rw [hn, h.inode_iff i n hpub, hinode i rfl, hn]

/-- Publishing under a free name spares what is there. -/
theorem Fs.Published.spares {fs a b : Fs} {d i : Nat} {name : Bytes} {n : Inode}
    (hkept : fs.Finished) (h : Fs.Published (fs.FreeTemporary name) d name i n a b)
    (hfree : a.lookup d name = none) (ha : fs.Spares a) : fs.Spares b := by
  intro e other node hlook
  obtain ⟨hlook', hinode⟩ := ha e other node hlook
  refine ⟨?_, ?_⟩
  · rw [h.lookup_ne e other, hlook']
    · intro hbad
      rw [hbad.1] at hlook
      cases hlook
    · intro heq
      obtain ⟨rfl, rfl⟩ := Prod.mk.inj heq
      rw [hfree] at hlook'
      cases hlook'
  · rintro j rfl
    obtain ⟨m, hm, hpub⟩ := hkept e other j hlook
    rw [← hinode j rfl] at hm
    obtain ⟨m', hm', -, hsame⟩ := h.old j m hpub hm
    rw [hm', hsame (by rw [hfree]; exact nofun), ← hinode j rfl, hm]

/-! ## Specifications -/

/-- A step that spares what was there in `fs`, if it was spared so far. -/
def Fs.Sparing (fs a b : Fs) : Prop := fs.Spares a → fs.Spares b

theorem Fs.sparing_refl (fs a : Fs) : fs.Sparing a a := id

/-- What copying may have done: published the copy under a free name, or nothing that stays
when files can be removed. -/
inductive CopyOutcome (sure : FileOp → Prop) (output content : Bytes) (mode : Nat) (fs : Fs) :
    PvStatus → Fs → Prop
  | copied {location : Location} {i : Nat} {status : PvStatus} {fs' : Fs}
      (hat : fs.At output location) (hfree : fs.lookup location.dir location.name = none)
      (h : Fs.Published (fs.FreeTemporary location.name) location.dir location.name i
        (publishedInode content mode) fs fs')
      (hstatus : status.Committed) :
      CopyOutcome sure output content mode fs status fs'
  | nothing {status : PvStatus} {fs' : Fs} (hstatus : ¬status.Committed)
      (h : (∀ d name, sure (.unlinkAt d name)) → ∀ d name, fs'.lookup d name = fs.lookup d name) :
      CopyOutcome sure output content mode fs status fs'

/-- The path leads to a free name, with room for a temporary. -/
structure Fs.Vacant (host : Host) (path : Bytes) (location : Location) (fs : Fs) : Prop where
  leadsTo : fs.LeadsTo path location
  room : host.Room fs location.dir location.name
  free : fs.lookup location.dir location.name = none

/-- A success may be turned into a warning later. -/
theorem CopyOutcome.warned {sure : FileOp → Prop} {output content : Bytes} {mode : Nat} {fs fs' : Fs}
    {status : PvStatus} (h : CopyOutcome sure output content mode fs status fs')
    (hstatus : status.Committed) : CopyOutcome sure output content mode fs .errDurability fs' := by
  cases h with
  | copied hat hfree h _ => exact .copied hat hfree h (.inr rfl)
  | nothing hbad => exact absurd hstatus hbad

section Specifications

variable {sure : FileOp → Prop} {faults : Bool} {fs : Fs} {path : Bytes} {host : Host}
variable {mode : Nat} {sourcePath : Bytes}

theorem confirmLocation_spec {location : Location} {status : PvStatus} {G : Fs → Fs → Prop}
    (hG : ∀ fs, G fs fs) :
    (files faults Alone G).wp (confirmLocation path location status)
      (fun s fs' => fs' = fs ∧ (s = status ∨ status = .ok ∧ s = .errDurability) ∧
        (faults = false → fs.LeadsTo path location → s = status)) fs := by
  rw [confirmLocation]
  split
  · next hok =>
    subst hok
    refine Sem.wp_then (revalidateStoreLocation_spec hG alone_refl alone_trans) ?_
    rintro valid fs₁ ⟨hrely, hvalid⟩
    refine ⟨hrely, ?_, fun hfalse hleads => if_neg (not_not.mpr (hvalid hfalse (fun _ h => h) hleads))⟩
    split
    · exact .inr ⟨rfl, rfl⟩
    · exact .inl rfl
  · exact ⟨rfl, .inl rfl, fun _ _ => rfl⟩

theorem writeSnapshotExclusive_spec {header : Block pvFileHeaderLen} {ciphertext : Bytes}
    (hkept : fs.Finished) (hne : ciphertext ≠ []) (hmode : privateMode mode) :
    (filesSure sure faults Alone fs.Sparing).wp
      (writeSnapshotExclusive host path header ciphertext mode)
      (fun status fs' => CopyOutcome sure path (header.bytes ++ ciphertext) mode fs status fs' ∧
        (faults = false → ∀ location, fs.Vacant host path location →
          status = .ok ∧ fs'.LeadsTo path location)) fs := by
  have hG := fs.sparing_refl
  refine Sem.wp_then (wp_sure (openStoreLocation_spec hG alone_refl alone_trans)) ?_
  rintro r fs₁ ⟨hrely, hresult⟩
  obtain rfl : fs₁ = fs := hrely
  cases r with
  | error status =>
    exact ⟨.nothing hresult.1 fun _ _ _ => rfl, fun hfalse location hvacant =>
      absurd (fun fs' h => (show fs' = fs₁ from h) ▸ hvacant.leadsTo) (hresult.2 hfalse location)⟩
  | ok location =>
  obtain ⟨parent, fs₂, hsplit, hsame, hres, -⟩ := hresult
  obtain rfl : fs₂ = fs₁ := hsame
  have hat : fs₂.At path location := ⟨parent, hsplit, hres⟩
  refine Sem.wp_then (writeSnapshotExclusiveAt_spec (E := fs₂.FreeTemporary location.name) host
    (fun a b hq => hq.spares hkept) (fun suffix hnone => ⟨hnone, suffix, rfl⟩)
    Fs.not_freeTemporary (hkept _ _)
    (fun a b i _ hpub hfree => hpub.spares hkept (hfree rfl)) hne hmode) ?_
  intro status fs₃ hresult
  refine Sem.wp_then (wp_sure (confirmLocation_spec hG)) ?_
  rintro s fs₄ ⟨rfl, hs, hstays⟩
  refine Sem.wp_then (wp_sure (closeStoreLocation_spec hG)) ?_
  rintro - fs₅ hrely
  obtain rfl : fs₅ = fs₄ := hrely
  have hdone : CopyOutcome sure path (header.bytes ++ ciphertext) mode fs₂ status fs₅ := by
    cases hresult.outcome with
    | published h hfree hstatus => exact .copied hat (hfree rfl) h hstatus
    | nothing _ hstatus =>
      have hstatus' : ¬status.Committed := by
        rcases hstatus with rfl | rfl | ⟨-, rfl⟩ <;> decide
      exact .nothing hstatus' fun hsure => hresult.traceless (fun t => hsure _ t)
        (PvStatus.ne_ok hstatus') fun h => hstatus' (.inr h)
  refine ⟨?_, fun hfalse location' hvacant => ?_⟩
  · rcases hs with rfl | ⟨hok, rfl⟩
    · exact hdone
    · exact hdone.warned (.inl hok)
  · obtain rfl := hvacant.leadsTo.at.unique hat
    have hok := (hresult.clean hfalse hvacant.room).ok (.inl hvacant.free)
    cases hresult.outcome with
    | published h _ _ =>
      have hleads := h.evolves.leadsTo (h.statDir_eq _) hvacant.leadsTo
      exact ⟨(hstays hfalse hleads).trans hok, hleads⟩
    | nothing _ hstatus =>
      rw [hok] at hstatus
      rcases hstatus with h | h | ⟨-, h⟩ <;> cases h

variable {Hash : Type} [DecidableEq Hash] {so : Sodium Hash}

omit [DecidableEq Hash] in
/-- A copy shows what was copied. -/
theorem CopyOutcome.shows {output data : Bytes} {fs' : Fs} {status : PvStatus}
    {location : Location} {source : DiskFile Hash} (hsource : source.Reads so data)
    (hmode : privateMode mode) (h : CopyOutcome sure output data mode fs status fs')
    (hstatus : status.Committed) (hat : fs.At output location) : ∃ st, st.mode = mode ∧
      fs'.Shows so location.dir location.name { source with stat := st } := by
  cases h with
  | nothing hbad => exact absurd hstatus hbad
  | @copied location' i _ _ hat' _ h _ =>
    obtain rfl := hat'.unique hat
    exact ⟨(publishedInode data mode).stat i, rfl, i, _, h.lookup_eq, h.inode_eq, ⟨rfl, rfl, hmode⟩,
      { hsource with }, rfl⟩

/-- Reading the copy back can only turn a success into a warning. -/
theorem writeExactSnapshotCopy_spec {source : DiskFile Hash} {data : Bytes} (hkept : fs.Finished)
    (hsource : source.Reads so data) (hmode : privateMode mode) :
    (filesSure sure faults Alone fs.Sparing).wp (writeExactSnapshotCopy so host source path mode)
      (fun status fs' => CopyOutcome sure path data mode fs status fs' ∧
        (faults = false → ∀ location, fs.Vacant host path location → status = .ok)) fs := by
  rw [writeExactSnapshotCopy, if_neg fun h => h hmode]
  refine Sem.wp_then (writeSnapshotExclusive_spec hkept hsource.ciphertext_ne hmode) ?_
  rintro status fs₁ ⟨hdone, hclean⟩
  rw [← DiskFile.bytes, hsource.bytes_eq] at hdone
  split
  · next hstatus =>
    refine Sem.wp_then (wp_sure (readDiskFile_alone so host fs.sparing_refl)) ?_
    rintro r fs₂ ⟨rfl, hread, herror⟩
    cases r with
    | error _ =>
      refine ⟨hdone.warned hstatus, fun hfalse location hvacant => ?_⟩
      obtain ⟨st, -, hshows⟩ := hdone.shows hsource hmode hstatus hvacant.leadsTo.at
      exact absurd hshows ((herror _ rfl).2 hfalse _ _ (hclean hfalse location hvacant).2)
    | ok recovered =>
      dsimp only
      split
      · next hdiffers =>
        refine ⟨hdone.warned hstatus, fun hfalse location hvacant => absurd hdiffers ?_⟩
        obtain ⟨place, hat, hshown⟩ := hread recovered rfl
        obtain rfl := hat.unique (hclean hfalse location hvacant).2.at
        obtain ⟨st, hst, hshows⟩ := hdone.shows hsource hmode hstatus hvacant.leadsTo.at
        rw [hshown.unique hshows]
        simp [hst]
      · exact ⟨hdone, fun hfalse location hvacant => (hclean hfalse location hvacant).1⟩
  · next hbad =>
    exact ⟨hdone, fun hfalse location hvacant => absurd (.inl (hclean hfalse location hvacant).1) hbad⟩

/-- What both commands do: read a snapshot, compare its hash and copy it. -/
theorem copyAuthenticated_spec {expected : Hash} {command : FileM PvStatus}
    {check : DiskFile Hash → Prop} [DecidablePred check] (hkept : fs.Finished)
    (hmode : privateMode mode) (hcheck : ∀ disk, ¬check disk ↔ disk.hash = expected)
    (hcommand : command = (do
      match ← readDiskFile so host sourcePath with
      | .error status => return status
      | .ok disk =>
        if check disk then return .errAuth else writeExactSnapshotCopy so host disk path mode)) :
    (filesSure sure faults Alone fs.Sparing).wp command
      (fun status fs' => (∃ data, (status = .ok → so.generichash data = expected) ∧
        CopyOutcome sure path data mode fs status fs') ∧
        (faults = false → ∀ place disk location, fs.LeadsTo sourcePath place →
          fs.Shows so place.dir place.name disk → disk.hash = expected →
          fs.Vacant host path location → status = .ok)) fs := by
  rw [hcommand]
  refine Sem.wp_then (wp_sure (readDiskFile_alone so host fs.sparing_refl)) ?_
  rintro r fs₁ ⟨rfl, hok, herr⟩
  cases r with
  | error status =>
    have hstatus := (herr status rfl).1
    exact ⟨⟨[], fun h => absurd h (PvStatus.ne_ok hstatus), .nothing hstatus fun _ _ _ => rfl⟩,
      fun hfalse _ _ _ hleads hshows _ _ => absurd hshows ((herr status rfl).2 hfalse _ _ hleads)⟩
  | ok disk =>
    obtain ⟨location, hat, hshown⟩ := hok disk rfl
    obtain ⟨i, n, -, -, -, hreads, -⟩ := id hshown
    dsimp only
    split
    · next hbad =>
      refine ⟨⟨[], nofun, .nothing (by decide) fun _ _ _ => rfl⟩,
        fun _ place other _ hleads hshows hhash _ => absurd hbad ((hcheck disk).mpr ?_)⟩
      obtain rfl := hat.unique hleads.at
      rwa [hshown.unique hshows]
    · next hsame =>
      refine Sem.wp_mono (writeExactSnapshotCopy_spec hkept hreads hmode) fun status fs' h => ?_
      exact ⟨⟨n.data, fun _ => hreads.hash_eq.symm.trans ((hcheck disk).mp hsame), h.1⟩,
        fun hfalse _ _ location _ _ _ hvacant => h.2 hfalse location hvacant⟩

theorem pvStoreBackup_spec (hkept : fs.Finished) (expected : Hash) :
    (filesSure sure faults Alone fs.Sparing).wp
      (pvStoreBackup so host sourcePath path (some expected))
      (fun status fs' => (∃ data, (status = .ok → so.generichash data = expected) ∧
        CopyOutcome sure path data 0o600 fs status fs') ∧
        (faults = false → ∀ place disk location, fs.LeadsTo sourcePath place →
          fs.Shows so place.dir place.name disk → disk.hash = expected →
          fs.Vacant host path location → status = .ok)) fs :=
  copyAuthenticated_spec hkept (.inr rfl) (fun disk => by
    rw [Option.any_some, decide_eq_true_iff, not_not, eq_comm]) rfl

theorem pvStoreRecoverAuthenticated_spec (hkept : fs.Finished) (expected : Hash) :
    (filesSure sure faults Alone fs.Sparing).wp
      (pvStoreRecoverAuthenticated so host sourcePath path expected)
      (fun status fs' => ∃ data, (status = .ok → so.generichash data = expected) ∧
        CopyOutcome sure path data 0o400 fs status fs') fs :=
  Sem.wp_mono (copyAuthenticated_spec hkept (.inl rfl) (fun _ => not_not) rfl) fun _ _ h => h.1

end Specifications

/-! ## Every run -/

/-- A run of a copying command has come to the point `rest`, `fs'`: what was there is there, a
success is a new file of the given mode with the expected hash, and a failure left no name
behind if files can be removed. -/
structure CopySafe {Hash : Type} (so : Sodium Hash) (sure : FileOp → Prop) (output : Bytes)
    (expected : Hash) (mode : Nat) (fs : Fs) (rest : FileM PvStatus) (fs' : Fs) : Prop where
  spares : fs.Spares fs'
  copied : rest = .ret .ok → ∃ location i n, fs.At output location ∧
    fs.lookup location.dir location.name = none ∧
    fs'.lookup location.dir location.name = some (.file i) ∧ fs'.inodes[i]? = some n ∧
    n.mode = mode ∧ so.generichash n.data = expected
  traceless : (∀ d name, sure (.unlinkAt d name)) → ∀ status, rest = .ret status → status ≠ .ok →
    status ≠ .errDurability → ∀ d name, fs'.lookup d name = fs.lookup d name

section Runs

variable {Hash : Type} {so : Sodium Hash} {sure : FileOp → Prop} {fs : Fs} {output : Bytes}
  {expected : Hash} {mode : Nat}

theorem CopySafe.of_wp {command rest : FileM PvStatus} {fs' : Fs}
    (hwp : (filesSure sure true Alone fs.Sparing).wp command
      (fun status fs' => ∃ data, (status = .ok → so.generichash data = expected) ∧
        CopyOutcome sure output data mode fs status fs') fs)
    (hrun : Sem.Run (filesSure sure true Alone fun _ _ => True) command fs rest fs') :
    CopySafe so sure output expected mode fs rest fs' := by
  have hrun' : Sem.Run (filesSure sure true Alone fs.Sparing) command fs rest fs' :=
    hrun.sub (fun _ _ _ _ h => h) fun _ _ h => h
  have hstable : ∀ (status : PvStatus) (a b : Fs), (∃ data,
      (status = .ok → so.generichash data = expected) ∧
        CopyOutcome sure output data mode fs status a) → Alone a b → ∃ data,
      (status = .ok → so.generichash data = expected) ∧
        CopyOutcome sure output data mode fs status b := by
    intro status a b h hsame
    rwa [show b = a from hsame]
  have hrest := Sem.wp_run hrun' alone_refl alone_trans hstable hwp
  refine ⟨?_, ?_, ?_⟩
  · refine Sem.guar_run hrun' alone_refl alone_trans hstable hwp (fun a b hsame h => ?_)
      (fun _ _ h => h) (Fs.Spares.refl fs)
    rwa [show b = a from hsame]
  · rintro rfl
    obtain ⟨data, hhash, hdone⟩ := hrest
    cases hdone with
    | copied hat hfree h _ =>
      exact ⟨_, _, _, hat, hfree, h.lookup_eq, h.inode_eq, rfl, hhash rfl⟩
    | nothing hstatus => exact absurd rfl (PvStatus.ne_ok hstatus)
  · rintro hsure status rfl hok hwarn
    obtain ⟨data, -, hdone⟩ := hrest
    cases hdone with
    | copied _ _ _ hstatus => exact absurd hstatus (not_or_intro hok hwarn)
    | nothing _ h => exact h hsure

/-- **Backup and rescue copies** at every point of every run, whatever calls fail: both commands
publish only the bytes that were authenticated, and touch nothing that was there, the source
included. The file system they start in is arbitrary, so the source may be another file than the
one whose hash is expected. -/
theorem copies_are_authenticated [DecidableEq Hash] (host : Host) (hkept : fs.Finished) (source output : Bytes)
    (expected : Hash) :
    (∀ rest fs', Sem.Run (filesSure sure true Alone fun _ _ => True)
        (pvStoreBackup so host source output (some expected)) fs rest fs' →
      CopySafe so sure output expected 0o600 fs rest fs') ∧
    ∀ rest fs', Sem.Run (filesSure sure true Alone fun _ _ => True)
        (pvStoreRecoverAuthenticated so host source output expected) fs rest fs' →
      CopySafe so sure output expected 0o400 fs rest fs' := by
  exact ⟨fun rest fs' hrun => .of_wp (Sem.wp_mono (pvStoreBackup_spec hkept expected) fun _ _ h => h.1) hrun,
    fun rest fs' hrun => .of_wp (pvStoreRecoverAuthenticated_spec hkept expected) hrun⟩

/-- A backup to a free name succeeds when no call fails. -/
theorem pvStoreBackup_succeeds [DecidableEq Hash] (host : Host) (hkept : fs.Finished)
    {source output : Bytes} {place location : Location} {disk : DiskFile Hash}
    (hleads : fs.LeadsTo source place) (hshows : fs.Shows so place.dir place.name disk)
    (hvacant : fs.Vacant host output location) : ∃ fs',
    Sem.Run (filesSure (fun _ => True) true Alone fun _ _ => True)
      (pvStoreBackup so host source output (some disk.hash)) fs (.ret .ok) fs' := by
  have hwp : (filesSure (fun _ => True) false Alone fs.Sparing).wp
      (pvStoreBackup so host source output (some disk.hash)) _ fs := pvStoreBackup_spec hkept disk.hash
  have htotal : ∀ (fs₁ : Fs) (op : FileOp), ∃ r fs₂,
      (filesSure (fun _ => True) false Alone fs.Sparing).step fs₁ op r fs₂ :=
    fun fs₁ op => ⟨_, _, Fs.Step.acts fs₁ op, fun _ => ⟨rfl, rfl⟩⟩
  obtain ⟨status, fs', hrun, -, hok⟩ :=
    Sem.exists_run alone_refl (show ¬false = true by decide) htotal hwp
  obtain rfl := hok rfl place disk location hleads hshows rfl hvacant
  exact ⟨fs', hrun.sub (fun _ _ _ _ h => ⟨h.1.mayFail, h.2⟩) fun _ _ h => h⟩

end Runs

theorem twoBackups_finished : twoBackups.Finished := by
  intro d name i hlook
  rw [twoBackups_lookup] at hlook
  split_ifs at hlook
  · cases hlook
    exact ⟨_, rfl, rfl⟩
  · cases hlook
    exact ⟨_, rfl, rfl⟩

/-- A backup of a backup, from start to end: what the copy holds is what was expected. -/
theorem copies_are_authenticated_two : ∃ disk : DiskFile Bytes, ∃ fs' location i n,
    Sem.Run (filesSure (fun _ => True) true Alone fun _ _ => True)
      (pvStoreBackup Sodium.toy plainHost (backupName 1) [0x63] (some disk.hash)) twoBackups
      (.ret .ok) fs' ∧
    twoBackups.At [0x63] location ∧ fs'.lookup location.dir location.name = some (.file i) ∧
    fs'.inodes[i]? = some n ∧ n.mode = 0o600 ∧ Sodium.toy.generichash n.data = disk.hash := by
  have hmem : backupName 1 ∈ twoBackups.names keepOne.dir := by
    rw [show keepOne.dir = 0 from rfl, twoBackups_names]
    exact .tail _ (.head _)
  obtain ⟨disk, hshows, -⟩ := twoBackups_inOrder hmem 1
    (parseAutomaticBackupName_format (by decide) (by decide))
  have hleads : twoBackups.LeadsTo (backupName 1) ⟨0, backupName 1⟩ :=
    ⟨[0x2e], _, by decide +kernel, rfl, rfl, rfl, by decide⟩
  have hvacant : twoBackups.Vacant plainHost [0x63] ⟨0, [0x63]⟩ :=
    ⟨⟨[0x2e], _, rfl, rfl, rfl, rfl, by decide⟩,
      ⟨by decide, by decide, 0, by decide, (twoBackups_lookup _ _).trans (by decide +kernel)⟩,
      (twoBackups_lookup _ _).trans (by decide +kernel)⟩
  obtain ⟨fs', hrun⟩ := pvStoreBackup_succeeds plainHost twoBackups_finished hleads hshows
    hvacant
  obtain ⟨location, i, n, hat, -, hlook, hn, hmode, hhash⟩ :=
    ((copies_are_authenticated _ twoBackups_finished _ _ _).1 _ _ hrun).copied rfl
  exact ⟨disk, fs', location, i, n, hrun, hat, hlook, hn, hmode, hhash⟩

end PVault
