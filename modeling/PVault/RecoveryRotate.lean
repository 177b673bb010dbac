import PVault.Bystander
import PVault.Lifetime
import PVault.RecoveryFile
import PVault.Tamper

/-!
# Rotating the recovery key (`src/cli.c`)

`command_recovery_rotate` draws a new recovery key, writes it to a file of its own, and only then
saves the vault with a recovery slot under the new key. If the save does not reach the vault, the
file is removed again.

* `Rotated` — what is on disk at any point of the command: the old vault, or the new one while the
  file with the new key is complete.
* `Beside.saves`, `KeyFile.unlink` — the save leaves the file alone, and the removal the vault.
* `rotation_never_strands` — whoever finds a vault that opens under the new key also finds the file,
  and after an error there is the old vault and no file.
-/

namespace PVault

open Binary Conc

/-! ## The command -/

/-- `PV_RECOVERY_TEXT_MAX`. -/
abbrev pvRecoveryTextMax : Nat := 128

/-- What `command_recovery_rotate` gets from outside. -/
structure RotateEnv where
  /-- the buffer of the new key -/
  keyBuffer : SecureAlloc
  /-- the buffer of its text -/
  textBuffer : SecureAlloc
  /-- what `pv_secure_read_secret` returned, and the password -/
  secret : PvStatus × PvBuffer
  unlock : UnlockEnv
  /-- the new key, as `randombytes_buf` drew it -/
  key : Block pvRecoveryKeyBytes
  text : RecoveryEnv
  /-- whether there is memory for the content of the file -/
  content : Bool
  nonce : Block pvWrapNonceBytes
  wrap : KeyMemory
  save : SaveEnv

section Command

variable {Hash : Type} (so : Sodium Hash) (host : Host)

/-- `open_password_vault`: what `pv_store_open_password_consume` leaves in an empty vault. -/
def openPasswordVault (env : RotateEnv) (path : Bytes) :
    FileM (Except PvStatus (Vault Hash × FileHeader)) :=
  match env.secret with
  | (.ok, ⟨some password, secure⟩) =>
    if password.length = 0 ∨ secure = false then return .error .errUsage
    else openCommon so host env.unlock path password false
  | (.ok, ⟨none, _⟩) => return .error .errUsage
  | (status, _) => return .error status

/-- The part of the command after the file was written. -/
def rotateAndSave [DecidableEq Hash] (env : RotateEnv) (vault : Vault Hash) (header : FileHeader)
    (retention : Nat) : SysM PvStatus :=
  match pvCryptoRewrapRecovery so header env.key vault.vmk env.nonce env.wrap with
  | (.ok, header) => do
    let r ← pvStoreSave so host env.save { vault with dirty := true } header retention
    return r.1
  | (status, _) => return status

/-- The file is removed again if the vault was not saved. -/
def keepOrUnlink (output : Bytes) (status : PvStatus) : SysM PvStatus :=
  if status ≠ .ok ∧ status ≠ .errDurability then do
    let _ ← onFiles (sys (.unlinkFile output))
    return status
  else return status

/-- The part of the command after the vault was opened. -/
def writeAndRotate [DecidableEq Hash] (env : RotateEnv) (output : Bytes) (retention : Nat)
    (vault : Vault Hash) (header : FileHeader) : SysM PvStatus :=
  match pvRecoveryEncode env.text vault.vaultId env.key pvRecoveryTextMax with
  | (.ok, encoded) => do
    let status ← onFiles (pvRecoveryWriteFile host env.content output encoded vault.vaultId)
    if status ≠ .ok then return status
    else
      let status ← rotateAndSave so host env vault header retention
      keepOrUnlink output status
  | (status, _) => return status

/-- `command_recovery_rotate`; `path` and `retention` are the configuration's. -/
def commandRecoveryRotate [DecidableEq Hash] (env : RotateEnv) (path output : Bytes) (retention : Nat) :
    SysM PvStatus :=
  if secureKeyAlloc env.keyBuffer ≠ .ok then return secureKeyAlloc env.keyBuffer
  else if secureKeyAlloc env.textBuffer ≠ .ok then return secureKeyAlloc env.textBuffer
  else do
    match ← onFiles (openPasswordVault so host env path) with
    | .error status => return status
    | .ok (vault, header) => writeAndRotate so host env output retention vault header

variable {so host}

end Command

/-! ## Calls that do not fail -/

/-- The call did what it should, if it is one of those in `sure`. -/
def Reliable (sure : FileOp → Prop) (w : World) : (op : SysOp) → SysRes op → World → Prop
  | .file op, r, w' => sure op → r = (w.fs.act op).1 ∧ w'.fs = (w.fs.act op).2
  | _, _, _ => True

/-- The client `c` by itself; every call may fail but those in `sure`. -/
def reliably (sure : FileOp → Prop) (c : Nat) (G : World → World → Prop) : Sem SysRes World :=
  { system true c (fun a b => b = a) G with
    step := fun w op r w' => World.Step true c w op r w' ∧ Reliable sure w op r w' }

section Reliably

variable {sure : FileOp → Prop} {c : Nat} {w w' : World} {α : Type}

theorem Run.unreliable {p rest : SysM α} (h : Sem.Run (reliably sure c fun _ _ => True) p w rest w') :
    Sem.Run (alone c) p w rest w' :=
  h.sub (fun _ _ _ _ hstep => hstep.1) fun _ _ hrely => hrely

theorem Run.returned {a : α} {rest : SysM α}
    (h : Sem.Run (reliably sure c fun _ _ => True) (.ret a) w rest w') : rest = .ret a ∧ w' = w := by
  generalize hp : (.ret a : SysM α) = p at h
  induction h with
  | refl => exact ⟨rfl, rfl⟩
  | env hrely _ ih =>
    obtain rfl := hrely
    exact ih hp
  | call => cases hp

/-- **A run of a program on files**: the locks stay, what each step keeps holds at every point, and at
the end the postcondition. -/
theorem Run.of_files {G : Fs → Fs → Prop} {I : Fs → Prop} {Q : α → Fs → Prop} {p : FileM α}
    {rest : SysM α} (hp : (filesSure sure true Alone G).wp p Q w.fs)
    (hG : ∀ a b, G a b → I a → I b) (hI : I w.fs)
    (hrun : Sem.Run (reliably sure c fun _ _ => True) (onFiles p) w rest w') :
    w'.locks = w.locks ∧ I w'.fs ∧ ∀ a, rest = .ret a → Q a w'.fs := by
  have hwp : (reliably sure c fun a b => b.locks = a.locks ∧ G a.fs b.fs).wp (onFiles p)
      (fun a w₁ => w₁.locks = w.locks ∧ Q a w₁.fs) w := by
    refine Sem.wp_lift (S := filesSure sure true Alone G) World.fs (fun w₁ => w₁.locks = w.locks) id
      ?_ ?_ rfl hp
    · rintro w₁ w₂ h₁ rfl
      exact ⟨h₁, rfl⟩
    · rintro w₁ op r w₂ h₁ ⟨hstep, hsure⟩
      cases hstep with
      | file hstep => exact ⟨⟨hstep, hsure⟩, fun hguar => ⟨h₁, rfl, hguar⟩⟩
  have hrun' : Sem.Run (reliably sure c fun a b => b.locks = a.locks ∧ G a.fs b.fs) (onFiles p)
      w rest w' := hrun.sub (fun _ _ _ _ h => h) fun _ _ h => h
  have hstable : ∀ (a : α) (w₁ w₂ : World), (w₁.locks = w.locks ∧ Q a w₁.fs) → w₂ = w₁ →
      w₂.locks = w.locks ∧ Q a w₂.fs := by
    rintro a w₁ w₂ h rfl
    exact h
  obtain ⟨hlocks, hI'⟩ := Sem.guar_run (I := fun w₁ => w₁.locks = w.locks ∧ I w₁.fs) hrun'
    (neighbours_none c).refl (neighbours_none c).trans hstable hwp
    (by rintro w₁ w₂ rfl h; exact h) (fun w₁ w₂ hguar h => ⟨hguar.1.trans h.1, hG _ _ hguar.2 h.2⟩)
    ⟨rfl, hI⟩
  refine ⟨hlocks, hI', ?_⟩
  rintro a rfl
  exact (Sem.wp_run hrun' (neighbours_none c).refl (neighbours_none c).trans hstable hwp).2

/-- A program returns when no call fails. -/
theorem Run.exists_reliable (sure : FileOp → Prop) {G : World → World → Prop} {Q : α → World → Prop}
    {p : SysM α} (hp : (system false c (fun a b => b = a) G).wp p Q w) :
    ∃ a w', Sem.Run (reliably sure c fun _ _ => True) p w (.ret a) w' ∧ Q a w' := by
  let S : Sem SysRes World := { system false c (fun a b => b = a) G with
    step := fun w op r w' => World.Step false c w op r w' ∧ Reliable sure w op r w' }
  have hwp : S.wp p Q w := Sem.wp_sub (S := system false c _ G) (fun _ _ _ _ h => h.1) (fun _ _ h => h)
    (fun _ _ h => h) id hp
  have htotal : ∀ w op, ∃ r w', S.step w op r w' := by
    intro w op
    cases op with
    | file op => exact ⟨_, _, .file (.acts w.fs op), fun _ => ⟨rfl, rfl⟩⟩
    | _ =>
      obtain ⟨r, w', hstep⟩ := World.Step.answers false c w _
      exact ⟨r, w', hstep, trivial⟩
  obtain ⟨a, w', hrun, hq⟩ := Sem.exists_run (S := S) (fun _ => rfl) (show ¬false = true by decide)
    htotal hwp
  exact ⟨a, w', hrun.sub (fun _ _ _ _ h => ⟨World.Step.mayFail h.1, h.2⟩) fun _ _ h => h, hq⟩

theorem Run.exists_files (sure : FileOp → Prop) {Q : α → Fs → Prop} {p : FileM α}
    (hp : (files false Alone fun _ _ => True).wp p Q w.fs) : ∃ a w',
      Sem.Run (reliably sure c fun _ _ => True) (onFiles p) w (.ret a) w' ∧ w'.locks = w.locks ∧
        Q a w'.fs := by
  refine Run.exists_reliable sure (G := fun _ _ => True) (Sem.wp_lift
    (S := files false Alone fun _ _ => True) World.fs (fun w₁ => w₁.locks = w.locks) id ?_ ?_ rfl hp)
  · rintro w₁ w₂ h₁ rfl
    exact ⟨h₁, rfl⟩
  · rintro w₁ op r w₂ h₁ hstep
    cases hstep with
    | file hstep => exact ⟨hstep, fun _ => ⟨h₁, trivial⟩⟩

end Reliably

/-! ## What is on disk -/

/-- The vault at the path has this header, and its recovery slot gives a master key under the
recovery key. -/
def Fs.OpensUnder {Hash : Type} (so : Sodium Hash) (fs : Fs) (path : Bytes)
    (key : Block pvRecoveryKeyBytes) (header : FileHeader) : Prop :=
  ∃ data vmk, ∃ disk : DiskFile Hash, fs.entry path = .holds data ∧ disk.Reads so data ∧
    disk.header = header ∧ Unwraps so header key.bytes true vmk

/-- What the path holds is on disk. -/
def Fs.PathSynced (fs : Fs) (path : Bytes) : Prop :=
  ∃ d name i n, fs.leaf path = some (d, name) ∧ fs.lookup d name = some (.file i) ∧
    fs.inodes[i]? = some n ∧ n.synced = true

/-- The output path holds the whole text of the new key, on disk: it is read back, and decodes to the
key. -/
def RotateEnv.Written (env : RotateEnv) (output : Bytes) (vaultId : Block pvVaultIdBytes) (fs : Fs) :
    Prop :=
  ∃ text, fs.PathHolds output (recoveryContent text vaultId) ∧ fs.PathSynced output ∧
    readBackText (recoveryContent text vaultId) pvRecoveryTextMax = (.ok, text) ∧
    pvRecoveryDecode env.text text vaultId = (.ok, env.key)

/-- **At any point of the command**, started in `fs`: the vault is the old one, or the file with the
new key is complete. -/
def Rotated (env : RotateEnv) (path output : Bytes) (fs fs' : Fs) : Prop :=
  fs'.entry path = fs.entry path ∨ ∃ header ciphertext,
    fs'.entry path = .holds (serialized header ++ ciphertext) ∧ env.Written output header.vaultId fs'

/-- The vault is the old one, and the output path is as it was. -/
def Undone (path output : Bytes) (fs fs' : Fs) : Prop :=
  fs'.entry path = fs.entry path ∧ ∀ d name, fs.leaf output = some (d, name) →
    fs'.leaf output = some (d, name) ∧ fs'.lookup d name = fs.lookup d name

/-- What the command leaves where it stops, or has returned. -/
structure RotateLaw (env : RotateEnv) (path output : Bytes) (fs : Fs) (rest : SysM PvStatus)
    (fs' : Fs) : Prop where
  rotated : Rotated env path output fs fs'
  undone : ∀ status, rest = .ret status → status ≠ .ok → status ≠ .errDurability →
    Undone path output fs fs'

/-- The file with the new key, as it was written. -/
structure KeyFile (env : RotateEnv) (output : Bytes) (vaultId : Block pvVaultIdBytes) (d : Nat)
    (name : Bytes) (i : Nat) (fs : Fs) : Prop where
  granted : env.text.Granted
  leaf_eq : fs.leaf output = some (d, name)
  sole : fs.Sole d name i
    (writtenInode (recoveryContent (recoveryText env.text vaultId env.key) vaultId))

section Disk

variable {Hash : Type} {so : Sodium Hash} {env : RotateEnv} {path output : Bytes} {fs fs' : Fs}

theorem RotateLaw.same (rest : SysM PvStatus) : RotateLaw env path output fs rest fs :=
  ⟨.inl rfl, fun _ _ _ _ => ⟨rfl, fun _ _ hleaf => ⟨hleaf, rfl⟩⟩⟩

/-- The header of a snapshot is the one it was sealed with. -/
theorem DiskFile.Reads.header_sealed {disk : DiskFile Hash} {header : FileHeader} {ciphertext : Bytes}
    (h : disk.Reads so (serialized header ++ ciphertext)) : disk.header = header := by
  refine serialized_injective (h.serialized_eq.trans ?_)
  have hbytes : disk.headerBytes.bytes ++ disk.ciphertext = serialized header ++ ciphertext := h.bytes_eq
  exact (List.append_inj hbytes (by rw [disk.headerBytes.length_eq, length_serialized])).1

/-- A vault that opens under the new key did so before, or the key is in the file. -/
theorem Rotated.opens (h : Rotated env path output fs fs') {header : FileHeader}
    (hopens : fs'.OpensUnder so path env.key header) :
    fs.OpensUnder so path env.key header ∨ env.Written output header.vaultId fs' := by
  obtain ⟨data, vmk, disk, hentry, hreads, hheader, hunwraps⟩ := hopens
  rcases h with hsame | ⟨header', ciphertext, hnew, hwritten⟩
  · rw [hsame] at hentry
    exact .inl ⟨data, vmk, disk, hentry, hreads, hheader, hunwraps⟩
  · rw [hnew, Slot.holds.injEq] at hentry
    rw [← hentry] at hreads
    rw [← hheader, hreads.header_sealed]
    exact .inr hwritten

variable {vaultId : Block pvVaultIdBytes} {d i : Nat} {name : Bytes}

theorem KeyFile.written (h : KeyFile env output vaultId d name i fs) : env.Written output vaultId fs := by
  refine ⟨recoveryText env.text vaultId env.key, ?_, ?_, readBack_recoveryContent ?_, ?_⟩
  · exact ⟨d, name, i, _, h.leaf_eq, h.sole.bound, h.sole.inode_eq, rfl, rfl, rfl,
      (by decide : 0o600 &&& 0o077 = 0)⟩
  · exact ⟨d, name, i, _, h.leaf_eq, h.sole.bound, h.sole.inode_eq, rfl⟩
  · exact (length_recoveryText_le _ _ _).trans_lt (by decide)
  · rw [recoveryText, List.append_assoc]
    exact pvRecoveryDecode_written h.granted vaultId env.key

/-- The text is too short for a snapshot. -/
theorem recoveryContent_foreign (env : RecoveryEnv) (vaultId : Block pvVaultIdBytes)
    (key : Block pvRecoveryKeyBytes) (disk : DiskFile Hash) :
    ¬disk.Reads so (recoveryContent (recoveryText env vaultId key) vaultId) := by
  intro hreads
  have hlt := length_recoveryContent_lt env vaultId key
  obtain ⟨k, hk, -, hlen⟩ := hreads.header_v1.bodyLen_eq
  rw [hreads.data_length, hlen] at hlt
  omega

end Disk

/-! ## The stages -/

/-- The vault and the header are those of the file at the path. -/
structure OpenedAt {Hash : Type} (fs : Fs) (path : Bytes) (vault : Vault Hash) (header : FileHeader) :
    Prop where
  path_eq : vault.path = path
  vaultId_eq : vault.vaultId = header.vaultId
  bound : ∃ location i, fs.At path location ∧ fs.lookup location.dir location.name = some (.file i)

section Stages

variable {Hash : Type} {so : Sodium Hash} {host : Host} {env : RotateEnv} {path output : Bytes}
variable {vault : Vault Hash} {header : FileHeader} {c : Nat} {w w₁ w' : World} {fs fs' : Fs}
variable {d i : Nat} {name : Bytes}
variable {retention : Nat}

theorem openPasswordVault_spec {faults : Bool} {G : Fs → Fs → Prop} (hG : ∀ fs, G fs fs) :
    (files faults Alone G).wp (openPasswordVault so host env path) (fun r fs' => fs' = fs ∧
      ∀ vault header, r = .ok (vault, header) → OpenedAt fs path vault header) fs := by
  rw [openPasswordVault]
  split
  · split
    · exact ⟨rfl, nofun⟩
    · refine Sem.wp_mono (openCommon_alone hG) ?_
      rintro r fs₁ ⟨rfl, hok⟩
      refine ⟨rfl, fun vault header hr => ?_⟩
      obtain ⟨location, disk, hat, ⟨i, n, hlook, -⟩, hopen⟩ := hok _ hr
      obtain ⟨rfl, vmk, key, body, payload, start, hopened⟩ := openDisk_opened hopen
      exact ⟨hopened.named.1, hopened.named.2, location, i, hat, hlook⟩
  · exact ⟨rfl, nofun⟩
  · exact ⟨rfl, nofun⟩

/-- Writing a file does not touch the vault, whose name is taken. -/
theorem OpenedAt.entry_eq (h : OpenedAt fs path vault header) (hfin : fs.Finished)
    (hquiet : Fs.Quiet (fs.FreeLeaf output) fs fs') : fs'.entry path = fs.entry path := by
  obtain ⟨location, j, hat, hbound⟩ := h.bound
  have hlook : fs'.lookup location.dir location.name = fs.lookup location.dir location.name := by
    refine hquiet.lookup_eq _ _ fun hfree => ?_
    rw [hfree.2] at hbound
    cases hbound
  rw [(hat.later hquiet.evolves).entry_eq, hat.entry_eq]
  exact (hquiet.evolves.slot_eq (hfin _ _) hlook).2

/-- The text was encoded in memory that was granted. -/
theorem pvRecoveryEncode_granted {env : RecoveryEnv} {vaultId : Block pvVaultIdBytes}
    {key : Block pvRecoveryKeyBytes} {encodedLen : Nat} {encoded : Bytes} (hlen : 77 < encodedLen)
    (h : pvRecoveryEncode env vaultId key encodedLen = (.ok, encoded)) :
    env.Granted ∧ encoded = recoveryText env vaultId key := by
  have hgranted : env.Granted := by
    rw [pvRecoveryEncode, if_neg (by omega)] at h
    split at h
    · cases h
    next hmem =>
    obtain ⟨hmaterial, htext⟩ := not_or.mp hmem
    split at h
    · next hchecksum =>
      rw [recoveryChecksum] at hchecksum
      split_ifs at hchecksum
      cases hchecksum
      cases h
    · next hchecksum =>
      rw [recoveryChecksum] at hchecksum
      split_ifs at hchecksum with hworkspace
      exact ⟨by simpa using hworkspace, by simpa using hmaterial, by simpa using htext⟩
  refine ⟨hgranted, ?_⟩
  rw [pvRecoveryEncode_eq hgranted vaultId key hlen] at h
  exact (Prod.mk.inj h).2.symm

/-- The file that was written, and the vault beside it. -/
structure Beside (env : RotateEnv) (path output : Bytes) (vault : Vault Hash) (d : Nat) (name : Bytes)
    (i : Nat) (fs fs₁ : Fs) : Prop where
  file : KeyFile env output vault.vaultId d name i fs₁
  leaf_eq : fs.leaf output = some (d, name)
  free : fs.lookup d name = none
  finished : (fs₁.mark i).Finished
  entry_eq : fs₁.entry path = fs.entry path
  bound : ∃ location j, fs₁.At path location ∧ fs₁.lookup location.dir location.name = some (.file j) ∧
    (location.dir, location.name) ≠ (d, name)

theorem OpenedAt.beside (h : OpenedAt fs path vault header) (hfin : fs.Finished)
    (hgranted : env.text.Granted) (hleaf : fs.leaf output = some (d, name))
    (htemp : Fs.Temp (fs.FreeLeaf output) fs d name i
      (writtenInode (recoveryContent (recoveryText env.text vault.vaultId env.key) vault.vaultId)) fs') :
    Beside env path output vault d name i fs fs' where
  file := ⟨hgranted, (htemp.quiet.leaf_eq output).trans hleaf, htemp.sole hfin⟩
  leaf_eq := hleaf
  free := htemp.new
  finished := htemp.finished_mark hfin
  entry_eq := h.entry_eq hfin htemp.quiet
  bound := by
    obtain ⟨location, j, hat, hbound⟩ := h.bound
    have hne : (location.dir, location.name) ≠ (d, name) := by
      intro heq
      obtain ⟨rfl, rfl⟩ := Prod.mk.inj heq
      exact absurd (hbound.symm.trans htemp.new) nofun
    exact ⟨location, j, hat.later htemp.quiet.evolves, (htemp.lookup_ne _ _ hne).trans hbound, hne⟩

/-- The save, with the file beside the vault. -/
structure Saving (env : RotateEnv) (path output : Bytes) (vault : Vault Hash) (d : Nat) (name : Bytes)
    (i : Nat) (fs fs₁ : Fs) (rest : SysM PvStatus) (fs' : Fs) : Prop where
  file : KeyFile env output vault.vaultId d name i fs'
  evolves : Fs.Evolves (fs₁.mark i) (fs'.mark i)
  rotated : Rotated env path output fs fs'
  refused : ∀ status, rest = .ret status → status ≠ .ok → status ≠ .errDurability →
    fs'.entry path = fs.entry path

theorem Beside.same (h : Beside env path output vault d name i fs fs') (rest : SysM PvStatus) :
    Saving env path output vault d name i fs fs' rest fs' :=
  ⟨h.file, .refl _, .inl h.entry_eq, fun _ _ _ _ => h.entry_eq⟩

/-- What a save may have installed has the id of the vault. -/
theorem SealsInto.vaultId_eq {env : SaveEnv} {new : Bytes} (h : SealsInto so env vault header new) :
    ∃ header' ciphertext, new = serialized header' ++ ciphertext ∧ header'.vaultId = header.vaultId := by
  obtain ⟨header', ciphertext, hseal, hnew⟩ := h
  obtain ⟨nonce, len, hframe⟩ := sealVault_frame so env (vault.stamped env.now) header
  rw [hseal] at hframe
  exact ⟨header', ciphertext, hnew, by rw [show header' = _ from hframe]⟩

/-- **Saving beside the file.** -/
theorem Beside.saves [DecidableEq Hash] (hinj : Function.Injective so.generichash)
    {rest : SysM (PvStatus × Vault Hash × FileHeader)}
    (h : Beside env vault.path output vault d name i fs w.fs)
    (hid : header.vaultId = vault.vaultId) (hidle : w.Idle c)
    (hrun : Sem.Run (alone c) (pvStoreSave so host env.save { vault with dirty := true } header
      retention) w rest w') :
    Saving env vault.path output vault d name i fs w.fs (rest >>= fun r => .ret r.1) w'.fs := by
  have hsaved := pvStoreSave_beside hinj hidle h.file.sole.lt h.finished hrun
  have hfile : KeyFile env output vault.vaultId d name i w'.fs := by
    refine ⟨h.file.granted, ?_, ?_⟩
    · have hleaf := hsaved.evolves.leaf_eq (Fs.leaf_mark output ▸ h.file.leaf_eq)
      rwa [Fs.leaf_mark] at hleaf
    · obtain ⟨location, j, hat, -, hne⟩ := h.bound
      refine pvStoreSave_spares hidle (recoveryContent_foreign _ _ _) (fun location' hat' => ?_)
        h.file.sole hrun
      rw [hat'.unique hat]
      exact hne
  refine ⟨hfile, hsaved.evolves, ?_, ?_⟩
  · rcases hsaved.active with hsame | ⟨new, hnew, hentry⟩
    · exact .inl (hsame.trans h.entry_eq)
    · obtain ⟨header', ciphertext, hbytes, hsame⟩ := hnew.vaultId_eq
      refine .inr ⟨header', ciphertext, hbytes ▸ hentry, ?_⟩
      rw [hsame, hid]
      exact hfile.written
  · intro status hret hok hdurability
    cases rest with
    | ret r =>
      obtain rfl : r.1 = status := by
        cases hret
        rfl
      refine (pvStoreSave_refused_beside hinj hidle h.file.sole.lt h.finished rfl ?_ hrun).trans
        h.entry_eq
      rintro (hcommitted | hcommitted)
      · exact hok hcommitted
      · exact hdurability hcommitted
    | call op k => cases hret
    | spin => cases hret

/-- Another name shows what it showed. -/
theorem Fs.slot_unlink {e : Nat} {other : Bytes} (hne : (e, other) ≠ (d, name)) :
    ((fs.dropLink (some (.file i))).unbind d name).slot e other = fs.slot e other := by
  have hlook : ((fs.dropLink (some (.file i))).unbind d name).lookup e other = fs.lookup e other := by
    rw [Fs.lookup_unbind, if_neg, Fs.lookup_dropLink]
    rintro ⟨rfl, rfl⟩
    exact hne rfl
  rw [Fs.slot, Fs.slot, hlook]
  rcases fs.lookup e other with _ | ⟨j⟩ | _ | _
  · rfl
  · have hinode : ((fs.dropLink (some (.file i))).unbind d name).inodes[j]? =
        (fs.dropLink (some (.file i))).inodes[j]? := rfl
    simp only [hinode, Fs.inodes_dropLink]
    cases fs.inodes[j]? with
    | none => rfl
    | some n =>
      simp only [Option.map_some]
      split <;> rfl
  · rfl
  · rfl

variable {rest : SysM PvStatus}

theorem rotateAndSave_run [DecidableEq Hash] (hinj : Function.Injective so.generichash)
    {sure : FileOp → Prop} (h : Beside env vault.path output vault d name i fs w.fs)
    (hid : header.vaultId = vault.vaultId) (hidle : w.Idle c)
    (hrun : Sem.Run (reliably sure c fun _ _ => True)
      (rotateAndSave so host env vault header retention) w rest w') :
    Saving env vault.path output vault d name i fs w.fs rest w'.fs := by
  rw [rotateAndSave] at hrun
  split at hrun
  · next header' hrewrap =>
    have hid' : header'.vaultId = vault.vaultId := by
      obtain ⟨slot, key, rfl, -⟩ := pvCryptoRewrapRecovery_ok hrewrap
      exact hid
    rcases hrun.bind_cases with ⟨p, hrun, hcut⟩ | ⟨r, w₁, hrun₁, hrun⟩
    · have hsaving := h.saves hinj hid' hidle (Run.unreliable hrun)
      exact { hsaving with refused := fun status hret => absurd hret (hcut status) }
    · obtain ⟨rfl, rfl⟩ := Run.returned hrun
      exact h.saves hinj hid' hidle (Run.unreliable hrun₁)
  · obtain ⟨rfl, rfl⟩ := Run.returned hrun
    exact h.same _

/-- **Removing the file**: the call does not fail, so the output path is as it was. -/
theorem KeyFile.unlink (h : KeyFile env output vault.vaultId d name i fs')
    (hleaf : fs.leaf output = some (d, name)) (hfree : fs.lookup d name = none)
    (hentry : fs'.entry path = fs.entry path) {location : Location} (hat : fs'.At path location)
    (hne : (location.dir, location.name) ≠ (d, name)) :
    Undone path output fs (fs'.act (.unlinkFile output)).2 := by
  have hact : (fs'.act (.unlinkFile output)).2 = (fs'.dropLink (some (.file i))).unbind d name := by
    simp only [Fs.act, h.leaf_eq, h.sole.bound]
  have hev : Fs.Evolves fs' ((fs'.dropLink (some (.file i))).unbind d name) :=
    (Fs.pruned_unlink (P := fun other => other = name) rfl h.sole.bound).evolves
  rw [hact]
  refine ⟨?_, fun e other hleaf' => ?_⟩
  · rw [(hat.later hev).entry_eq, ← hentry, hat.entry_eq]
    exact Fs.slot_unlink hne
  · rw [hleaf] at hleaf'
    cases hleaf'
    refine ⟨hev.leaf_eq h.leaf_eq, ?_⟩
    rw [Fs.lookup_unbind, if_pos ⟨rfl, rfl⟩, hfree]

/-- The end of the command. -/
theorem keepOrUnlink_run {status : PvStatus} {fs₁ : Fs}
    (h : Saving env path output vault d name i fs fs₁ (.ret status) w.fs)
    (hbeside : Beside env path output vault d name i fs fs₁)
    (hrun : Sem.Run (reliably (fun op => op = .unlinkFile output) c fun _ _ => True)
      (keepOrUnlink output status) w rest w') :
    RotateLaw env path output fs rest w'.fs := by
  rw [keepOrUnlink] at hrun
  split at hrun
  · next hbad =>
    -- the one call is sure to remove the file; before it, the save has returned
    have hentry := h.refused status rfl hbad.1 hbad.2
    obtain ⟨location, j, hat, -, hne⟩ := hbeside.bound
    have hat' : w.fs.At path location := by
      obtain ⟨parent, hsplit, hres⟩ := hat
      have hres' := h.evolves.resolve_eq ((Fs.resolve_mark parent).trans hres)
      exact ⟨parent, hsplit, (Fs.resolve_mark parent).symm.trans hres'⟩
    have hunlink := h.file.unlink hbeside.leaf_eq hbeside.free hentry hat' hne
    have hremove : (filesSure (fun op => op = .unlinkFile output) true Alone
        fun a b => b = a ∨ b = (w.fs.act (.unlinkFile output)).2).wp (sys (.unlinkFile output))
        (fun _ fs' => fs' = (w.fs.act (.unlinkFile output)).2) w.fs := by
      rintro fs₂ rfl r fs₃ ⟨-, hsure⟩
      exact ⟨.inr (hsure rfl).2, (hsure rfl).2⟩
    rcases hrun.bind_cases with ⟨p, hrun, hcut⟩ | ⟨r, w₁, hrun₁, hrun⟩
    · obtain ⟨-, hfs, -⟩ := Run.of_files
        (I := fun fs' => fs' = w.fs ∨ fs' = (w.fs.act (.unlinkFile output)).2) hremove
        (by rintro a b (rfl | rfl) ha; exacts [ha, .inr rfl]) (.inl rfl) hrun
      refine ⟨?_, fun status hret => absurd hret (hcut status)⟩
      rcases hfs with hfs | hfs <;> rw [hfs]
      · exact h.rotated
      · exact .inl hunlink.1
    · obtain ⟨-, -, hfs⟩ := Run.of_files (I := fun _ => True) hremove (fun _ _ _ _ => trivial) trivial
        hrun₁
      obtain ⟨rfl, rfl⟩ := Run.returned hrun
      rw [hfs r rfl]
      exact ⟨.inl hunlink.1, fun _ _ _ _ => hunlink⟩
  · next hgood =>
    obtain ⟨rfl, rfl⟩ := Run.returned hrun
    refine ⟨h.rotated, fun status' hret hok hdurability => ?_⟩
    cases hret
    exact absurd ⟨hok, hdurability⟩ hgood

theorem writeAndRotate_run [DecidableEq Hash] (hinj : Function.Injective so.generichash)
    (hidle : w.Idle c) (hfin : w.fs.Finished) (hopened : OpenedAt w.fs path vault header)
    (hrun : Sem.Run (reliably (fun op => op = .unlinkFile output) c fun _ _ => True)
      (writeAndRotate so host env output retention vault header) w rest w') :
    RotateLaw env path output w.fs rest w'.fs := by
  have hid := hopened.vaultId_eq
  obtain rfl := hopened.path_eq
  rw [writeAndRotate] at hrun
  split at hrun
  · next encoded hencode =>
    obtain ⟨hgranted, htext⟩ := pvRecoveryEncode_granted (by decide) hencode
    rw [htext] at hrun
    have hwrite : (filesSure (fun op => op = .unlinkFile output) true Alone
        (Fs.Quiet (w.fs.FreeLeaf output))).wp _ _ w.fs :=
      pvRecoveryWriteFile_spec host env.content output (recoveryText env.text vault.vaultId env.key)
        vault.vaultId fun _ _ h => h
    rcases hrun.bind_cases with ⟨p, hrun, hcut⟩ | ⟨status, w₁, hrun₁, hrun⟩
    · obtain ⟨-, hquiet, -⟩ := Run.of_files (I := Fs.Quiet (w.fs.FreeLeaf output) w.fs) hwrite
        (fun _ _ h h' => h'.trans h) (.refl _) hrun
      exact ⟨.inl (hopened.entry_eq hfin hquiet), fun status hret => absurd hret (hcut status)⟩
    obtain ⟨hlocks, hquiet, hout⟩ := Run.of_files (I := Fs.Quiet (w.fs.FreeLeaf output) w.fs) hwrite
      (fun _ _ h h' => h'.trans h) (.refl _) hrun₁
    have hentry := hopened.entry_eq hfin hquiet
    cases hout status rfl with
    | nothing _ hstatus hsame =>
      have hne : status ≠ .ok := by
        rintro rfl
        exact absurd hstatus (by decide)
      rw [if_pos hne] at hrun
      obtain ⟨rfl, rfl⟩ := Run.returned hrun
      exact ⟨.inl hentry, fun _ _ _ _ => ⟨hentry, fun e other hleaf =>
        ⟨(hquiet.leaf_eq output).trans hleaf, hsame rfl e other⟩⟩⟩
    | written hleaf htemp =>
      have hbeside := hopened.beside hfin hgranted hleaf htemp
      have hidle₁ : w₁.Idle c := by rwa [World.Idle, World.locksOf, hlocks]
      rw [if_neg (by decide)] at hrun
      rcases hrun.bind_cases with ⟨p, hrun, hcut⟩ | ⟨status, w₂, hrun₂, hrun⟩
      · have hsaving := rotateAndSave_run hinj hbeside hid.symm hidle₁ hrun
        exact ⟨hsaving.rotated, fun status hret => absurd hret (hcut status)⟩
      · exact keepOrUnlink_run (rotateAndSave_run hinj hbeside hid.symm hidle₁ hrun₂) hbeside hrun
  · obtain ⟨rfl, rfl⟩ := Run.returned hrun
    exact .same _

theorem commandRecoveryRotate_run [DecidableEq Hash] (hinj : Function.Injective so.generichash)
    (hidle : w.Idle c) (hfin : w.fs.Finished)
    (hrun : Sem.Run (reliably (fun op => op = .unlinkFile output) c fun _ _ => True)
      (commandRecoveryRotate so host env path output retention) w rest w') :
    RotateLaw env path output w.fs rest w'.fs := by
  rw [commandRecoveryRotate] at hrun
  split at hrun
  · rw [(Run.returned hrun).2]
    exact .same _
  split at hrun
  · rw [(Run.returned hrun).2]
    exact .same _
  have hopen : (filesSure (fun op => op = .unlinkFile output) true Alone fun a b => b = a).wp
      (openPasswordVault so host env path) _ w.fs := wp_sure (openPasswordVault_spec fun _ => rfl)
  rcases hrun.bind_cases with ⟨p, hrun, -⟩ | ⟨r, w₁, hrun₁, hrun⟩
  · obtain ⟨-, hfs, -⟩ := Run.of_files (I := fun fs' => fs' = w.fs) hopen
      (by rintro a b rfl ha; exact ha) rfl hrun
    rw [hfs]
    exact .same _
  obtain ⟨hlocks, hfs, hopened⟩ := Run.of_files (I := fun fs' => fs' = w.fs) hopen
    (by rintro a b rfl ha; exact ha) rfl hrun₁
  cases r with
  | error status =>
    rw [(Run.returned hrun).2, hfs]
    exact .same _
  | ok opened =>
    have hidle₁ : w₁.Idle c := by rwa [World.Idle, World.locksOf, hlocks]
    have hlaw := writeAndRotate_run hinj hidle₁ (hfs ▸ hfin)
      (hfs ▸ (hopened _ rfl).2 opened.1 opened.2 rfl) hrun
    rwa [hfs] at hlaw

/-- **Rotation never strands the user.** Any call may fail but the removal of the output file, and the
command may stop anywhere. If the vault then opens under the new key and did not before, the output
path holds the whole text of the key; and if the command returned an error other than
`PV_ERR_DURABILITY`, the vault is the old one and the output file is gone. -/
theorem rotation_never_strands [DecidableEq Hash] (hinj : Function.Injective so.generichash)
    (host : Host) {env : RotateEnv} {path output : Bytes} {retention : Nat} {rest : SysM PvStatus}
    (hidle : w.Idle c) (hfin : w.fs.Finished)
    (hrun : Sem.Run (reliably (fun op => op = .unlinkFile output) c fun _ _ => True)
      (commandRecoveryRotate so host env path output retention) w rest w') :
    (∀ header, w'.fs.OpensUnder so path env.key header →
      w.fs.OpensUnder so path env.key header ∨ env.Written output header.vaultId w'.fs) ∧
    ∀ status, rest = .ret status → status ≠ .ok → status ≠ .errDurability →
      Undone path output w.fs w'.fs := by
  have hlaw := commandRecoveryRotate_run hinj hidle hfin hrun
  exact ⟨fun header hopens => hlaw.rotated.opens hopens, hlaw.undone⟩

end Stages

/-! ## Two rotations -/

/-- A rotation of the first vault, with this memory to wrap the master key. -/
def rotation (wrap : KeyMemory) : RotateEnv where
  keyBuffer := .allocated
  textBuffer := .allocated
  secret := (.ok, ⟨some [0x61], true⟩)
  unlock := openingEnv
  key := Block.ofBytes _ [9]
  text := zeroChecksumEnv
  content := true
  nonce := Block.zero _
  wrap := wrap
  save := writeEnv 2

/-- `v.tmp.00000001`: the store overlooks such names. -/
def keyName : Bytes := temporaryName vaultPlace.name 1

def keyPath : Bytes := 0x2f :: keyName

/-- The only call that does not fail. -/
abbrev unlinking : Sem SysRes World := reliably (fun op => op = .unlinkFile keyPath) 0 fun _ _ => True

/-- The first snapshot opens under the first credentials. -/
theorem writtenSnapshot_opens : OpensTo Sodium.toy firstCredentials (Block.zero _) (emptyPayload 1 0)
    (writtenSnapshot 1 1) := by
  obtain ⟨header, ciphertext, hbody, hbytes, hv, -, -, hlen⟩ := writtenSnapshot_ok 1 1
  have hstep : RotationStep Sodium.toy (Block.zero _) ⟨firstHeader, [0x61], firstKey⟩
      ⟨header, [0x61], firstKey⟩ := .encryptBody hbody
  exact ⟨⟨header, ciphertext, hbytes, hv, hlen,
    hstep.slotsOpen (pvCryptoCreateHeader_slotsOpen newHeader_first),
    pvCryptoDecryptBody_encrypt Sodium.toy_aeadCorrect hbody⟩, emptyPayload_accepted 1,
    show rebuiltEnd [] ≤ pvArenaCapacity by decide⟩

theorem writtenSnapshot_header {disk : DiskFile Bytes} (h : disk.Reads Sodium.toy (writtenSnapshot 1 1)) :
    disk.header.vaultId = backupHeader.vaultId ∧ disk.header.bodyNonce = Block.ofBytes _ [1] := by
  obtain ⟨header, ciphertext, -, hbytes, -, hid, hnonce, -⟩ := writtenSnapshot_ok 1 1
  rw [hbytes] at h
  rw [h.header_sealed]
  exact ⟨hid, hnonce⟩

/-- The handle it opens to. -/
structure FirstHandle (fs : Fs) (vault : Vault Bytes) (disk : DiskFile Bytes) : Prop where
  current : fs.Current Sodium.toy vaultPlace vault disk
  reads : disk.Reads Sodium.toy (writtenSnapshot 1 1)
  trusted : Trusted Sodium.toy firstCredentials (vault, disk.header)
  path_eq : vault.path = vaultPath
  vmk_eq : vault.vmk = Block.zero _
  payload_eq : vault.payload = emptyPayload 1 0

theorem openPasswordVault_first (wrap : KeyMemory) {fs : Fs} (hleads : fs.LeadsTo vaultPath vaultPlace)
    (hholds : fs.HoldsPrivate vaultPlace (writtenSnapshot 1 1)) : (files false Alone fun _ _ => True).wp
      (openPasswordVault Sodium.toy plainHost (rotation wrap) vaultPath) (fun r fs' => fs' = fs ∧
        ∃ vault disk, r = .ok (vault, disk.header) ∧ FirstHandle fs vault disk) fs := by
  have hopens := writtenSnapshot_opens
  obtain ⟨disk, hreads⟩ := hopens.reads
  obtain ⟨st, -, hshown⟩ := hholds.shows hreads
  refine Sem.wp_mono (openCommon_shown (fun _ => trivial) hleads hshown) ?_
  rintro r fs' ⟨rfl, disk, hshows, rfl⟩
  obtain ⟨hreads, hmode⟩ := hholds.reads hshows
  obtain ⟨vault, hopen⟩ := hopens.opens Sodium.toy_aeadCorrect hreads openingEnv_grants
    (show vaultPath.length < pathMax by decide) .password
  obtain ⟨htrusted, hvmk, hpayload, hhash⟩ := hopens.trusted Sodium.toy_aeadCorrect hreads .password hopen
  obtain ⟨-, _, _, _, _, _, hfrom⟩ := openDisk_opened hopen
  exact ⟨rfl, vault, disk, hopen, ⟨hshows, hmode, hreads.hash_eq.trans hhash.symm, hfrom.named.2.symm⟩,
    hreads, htrusted, hfrom.named.1, hvmk, hpayload⟩

section Rotations

variable {w : World} (hstage : w.Stage vaultPath vaultPlace (writtenSnapshot 1 1) [backupName 0] [])
include hstage

/-- The command up to the save. -/
theorem rotation_begins (wrap : KeyMemory) : ∃ (vault : Vault Bytes) (disk : DiskFile Bytes) (w₁ : World)
    (i : Nat) (n : Inode), FirstHandle w.fs vault disk ∧ w₁.locks = [] ∧
      Fs.Temp (w.fs.FreeLeaf keyPath) w.fs 0 keyName i n w₁.fs ∧
      ∀ status w', Sem.Run unlinking (do
          let status ← rotateAndSave Sodium.toy plainHost (rotation wrap) vault disk.header 1
          keepOrUnlink keyPath status) w₁ (.ret status) w' →
        Sem.Run unlinking (commandRecoveryRotate Sodium.toy plainHost (rotation wrap) vaultPath keyPath 1)
          w (.ret status) w' := by
  have hleads := hstage.orderly.settled.leadsTo
  obtain ⟨r, w₀, hopen, hlocks₀, hfs, vault, disk, rfl, hfirst⟩ := Run.exists_files
    (fun op => op = .unlinkFile keyPath) (c := 0) (openPasswordVault_first wrap hleads hstage.holds)
  -- the file with the new key is written
  have hcan : w.fs.CanWrite keyPath
      (recoveryContent (recoveryText zeroChecksumEnv vault.vaultId (rotation wrap).key) vault.vaultId) := by
    obtain ⟨parent, dir, hsplit, hresolve, hdir, hparent⟩ := hleads
    cases hsplit
    exact ⟨⟨by decide, 0, ⟨dir.own, dir.mode⟩, hresolve, Option.map_eq_some_iff.mpr ⟨dir, hdir, rfl⟩,
      hparent⟩, length_recoveryContent_lt _ _ _, 0, keyName, rfl,
      hstage.orderly.noScratch _ _ (scratch_active 1), (List.getElem?_eq_some_iff.mp hdir).1⟩
  obtain ⟨status, w₁, hwrite, hlocks₁, hout⟩ := Run.exists_files
    (fun op => op = .unlinkFile keyPath) (c := 0) (w := w₀)
    (wp_of_sure (pvRecoveryWriteFile_spec plainHost true keyPath
      (recoveryText zeroChecksumEnv vault.vaultId (rotation wrap).key) vault.vaultId fun _ _ _ => trivial))
  rw [hfs] at hout
  cases hout with
  | nothing _ _ _ hwhy => exact absurd hcan (hwhy ⟨rfl, rfl⟩)
  | written hleaf htemp =>
    cases hleaf
    refine ⟨vault, disk, w₁, _, _, hfirst, hlocks₁.trans (hlocks₀.trans hstage.orderly.unlocked), htemp,
      fun status w' hrun => ?_⟩
    have hencode := pvRecoveryEncode_eq (show zeroChecksumEnv.Granted from ⟨rfl, rfl, rfl⟩) vault.vaultId
      (rotation wrap).key (show 77 < pvRecoveryTextMax by decide)
    rw [commandRecoveryRotate, if_neg (show ¬secureKeyAlloc (rotation wrap).keyBuffer ≠ .ok from (· rfl)),
      if_neg (show ¬secureKeyAlloc (rotation wrap).textBuffer ≠ .ok from (· rfl))]
    refine (hopen.bind _).trans ?_
    show Sem.Run _ (writeAndRotate _ _ _ _ _ vault disk.header) w₀ _ w'
    rw [writeAndRotate, show (rotation wrap).text = zeroChecksumEnv from rfl, hencode]
    exact (hwrite.bind _).trans hrun

/-- Without memory the file is removed again. -/
theorem rotation_refused : ∃ w', Sem.Run unlinking
    (commandRecoveryRotate Sodium.toy plainHost (rotation ⟨.noMemory, true⟩) vaultPath keyPath 1) w
    (.ret .errNomem) w' := by
  obtain ⟨vault, disk, w₁, i, n, -, -, -, hruns⟩ := rotation_begins hstage ⟨.noMemory, true⟩
  obtain ⟨r, w', hunlink, -⟩ := Run.exists_files (fun op => op = .unlinkFile keyPath)
    (Q := fun _ _ => True) (c := 0) (w := w₁) (p := sys (.unlinkFile keyPath))
    fun _ _ _ _ _ => ⟨trivial, trivial⟩
  refine ⟨w', hruns _ _ ?_⟩
  show Sem.Run _ (keepOrUnlink keyPath .errNomem) w₁ _ w'
  rw [keepOrUnlink, if_pos (by decide)]
  exact (hunlink.bind _).trans (.refl _ _)

/-- Its save beside the file. -/
theorem FirstHandle.saves {vault : Vault Bytes} {disk : DiskFile Bytes} {header : FileHeader}
    {w₁ : World} {i : Nat} {n : Inode} (h : FirstHandle w.fs vault disk) (hdirty : vault.dirty = true)
    (husable : header.Usable) (hlocks : w₁.locks = [])
    (htemp : Fs.Temp (w.fs.FreeLeaf keyPath) w.fs 0 keyName i n w₁.fs) : ∃ r w',
    Sem.Run unlinking (pvStoreSave Sodium.toy plainHost (writeEnv 2) vault header 1) w₁ (.ret r) w' ∧
      r.1 = .ok ∧ SaveWork Sodium.toy plainHost false (writeEnv 2) vault header vaultPlace w₁.fs r w'.fs ∧
      w'.fs.LeadsTo vaultPath vaultPlace := by
  have hsettled := hstage.orderly.settled
  have hgeneration : vault.generation = 1 := congrArg Payload.generation h.payload_eq
  have hpayload : (vault.stamped (writeEnv 2).now).payload = emptyPayload 2 0 :=
    congrArg (fun p : Payload => { p with generation := p.generation + 1, updatedMs := 0 }) h.payload_eq
  have hlimits : vault.WithinLimits (writeEnv 2).now :=
    ⟨by rw [hgeneration]; decide, by rw [hpayload]; exact emptyHandle_valid 1 0 0 (by decide),
      by rw [hpayload]; exact length_emptyPayload 2 0⟩
  -- to the store, the file is one of its temporaries
  have hquiet : Fs.Quiet (Scratch vaultPlace) w.fs w₁.fs := { htemp.quiet with
    lookup_eq := fun d name hname => htemp.lookup_ne d name fun heq => hname (by
      obtain ⟨rfl, rfl⟩ := Prod.mk.inj heq
      exact scratch_active 1) }
  let plan (old : Slot) : Plan := savePlan Sodium.toy (writeEnv 2) vaultPlace vault header false old
  have hprepared : (plan (w.fs.active vaultPlace)).Preparations w.fs w₁.fs := .single (.quiet hquiet)
  have hunused : ∀ d, w.fs.lookup 0 backupsName = some (.dir d) →
      w.fs.lookup d (autoBackupName vault.vaultId vault.generation.toNat) = none := by
    intro d hdir
    by_contra hbound
    have hlisted := hstage.listed d _ hdir (not_scratch_snapshot (autoBackupName_snapshot _ _)) hbound
    rw [← h.current.vaultId_eq, (writtenSnapshot_header h.reads).1, hgeneration] at hlisted
    exact absurd hlisted (by decide)
  obtain ⟨htidy, hshows, hfree⟩ := hprepared.ready hsettled.tidy h.current.shows.slot_eq
    (h.reads.bytes_eq ▸ h.reads) h.current.vaultId_eq h.current.shows
    ⟨hsettled.hosts (by decide), fun d hdir => .inl (hunused d hdir)⟩
  have hleads := hprepared.steps.leadsTo hsettled.leadsTo
  have hroomy : (plan (w₁.fs.active vaultPlace)).Roomy plainHost w₁.fs := by
    have hroomy : (plan .absent).Roomy plainHost w.fs := hstage.orderly.noScratch.roomy
    refine ⟨?_, fun d hdir => ?_⟩
    · obtain ⟨k, hk, hfree⟩ := hroomy.1
      exact ⟨k, hk, (htemp.lookup_ne 0 (temporaryName [0x76] 0) (by decide)).trans hfree⟩
    · obtain ⟨k, hk, hfree⟩ := hroomy.2 d ((hquiet.dir_iff _ _ d).mp hdir)
      exact ⟨k, hk, (htemp.lookup_ne _ _ fun heq => Fs.backups_ne hdir (Prod.mk.inj heq).1).trans hfree⟩
  have hidle : w₁.Idle 0 := by
    rw [World.Idle, World.locksOf, hlocks]
    rfl
  have hsave := pvStoreSave_succeeds (c := 0) Sodium.toy_injective hidle hdirty Nat.one_ne_zero
    ⟨h.path_eq ▸ hleads, htidy, by simp [hlocks], hsettled.short, hroomy⟩ { h.current with shows := hshows }
    (hlimits.sealable Sodium.toy_documented (writeEnv_granted 2) husable) (by rw [hgeneration]; decide)
    hfree
  obtain ⟨r, w', hrun, hok, hwork, -⟩ := Run.exists_reliable (fun op => op = .unlinkFile keyPath) hsave
  exact ⟨r, w', hrun, hok, hwork, hwork.steps.leadsTo hleads⟩

/-- With memory the vault is saved, under a header with another nonce. -/
theorem rotation_committed : ∃ w' header, Sem.Run unlinking
    (commandRecoveryRotate Sodium.toy plainHost (rotation .granted) vaultPath keyPath 1) w (.ret .ok) w' ∧
      w'.fs.OpensUnder Sodium.toy vaultPath (Block.ofBytes _ [9]) header ∧
      header.bodyNonce = Block.ofBytes _ [2] := by
  obtain ⟨vault, disk, w₁, i, n, hfirst, hlocks, htemp, hruns⟩ := rotation_begins hstage .granted
  -- the new recovery slot
  obtain ⟨header, hrewrap⟩ : ∃ header, pvCryptoRewrapRecovery Sodium.toy disk.header (rotation .granted).key
      vault.vmk (rotation .granted).nonce (rotation .granted).wrap = (.ok, header) := by
    rw [hfirst.vmk_eq]
    exact ⟨_, rfl⟩
  have husable : header.Usable := by
    obtain ⟨slot, key, rfl, -⟩ := pvCryptoRewrapRecovery_ok hrewrap
    exact { hfirst.reads.header_v1.usable with }
  have hstep : RotationStep Sodium.toy vault.vmk ⟨disk.header, [0x61], firstKey⟩
      ⟨header, [0x61], Block.ofBytes _ [9]⟩ := .rewrapRecovery hrewrap
  have htrusted : Trusted Sodium.toy ⟨[0x61], Block.ofBytes _ [9]⟩ ({ vault with dirty := true }, header) :=
    ⟨hstep.slotsOpen hfirst.trusted.slots, hfirst.trusted.roomy.of_records rfl rfl ⟨rfl, rfl⟩⟩
  have hchanged : FirstHandle w.fs { vault with dirty := true } disk :=
    { hfirst with
      current := { hfirst.current with }, trusted := { hfirst.trusted with roomy := htrusted.roomy } }
  obtain ⟨r, w', hrun, hok, hwork, hleads⟩ := hchanged.saves hstage rfl husable hlocks htemp
  have hdone := hwork.committed (.inl hok)
  obtain ⟨ciphertext, hsealed⟩ := hdone.sealed_eq
  have hopens := htrusted.opensTo Sodium.toy_aeadCorrect husable ⟨_, _, hsealed, rfl⟩
  have hentry : w'.fs.entry vaultPath = .holds (serialized r.2.2 ++ ciphertext) := by
    have hactive : w'.fs.active vaultPlace = .holds (sealedBytes (sealVault Sodium.toy (writeEnv 2)
      (Vault.stamped { vault with dirty := true } (writeEnv 2).now) header)) := hdone.active
    rw [hsealed, sealedBytes] at hactive
    exact hleads.at.entry_eq.trans hactive
  obtain ⟨disk', hreads⟩ := hopens.reads
  obtain ⟨_, hopen⟩ := hopens.opens Sodium.toy_aeadCorrect hreads openingEnv_grants
    (show vaultPath.length < pathMax by decide) .recovery
  obtain ⟨-, vmk, _, _, hunlock, -⟩ := openDisk_ok hopen
  refine ⟨w', disk'.header, hruns _ _ ?_, ⟨_, vmk, disk', hentry, hreads, rfl, openingEnv, hunlock⟩, ?_⟩
  · rw [rotateAndSave, hrewrap]
    refine ((hrun.bind _).bind _).trans ?_
    show Sem.Run _ (keepOrUnlink keyPath r.1) w' _ w'
    rw [hok, keepOrUnlink, if_neg (by decide)]
    exact .refl _ _
  · obtain ⟨encoded, -, hencrypt⟩ := sealVault_ok hsealed
    obtain ⟨key, pages, -, -, -, hheader, -⟩ := pvCryptoEncryptBody_ok hencrypt
    rw [hreads.header_sealed, hheader]
    rfl

end Rotations

/-- After the vault was made, one rotation commits, and the theorem gives the file with the key; another
runs out of memory, and the theorem gives the old vault and no file. -/
theorem rotation_never_strands_first : ∃ saved w w₁ w₂ header, Sem.Run (undisturbed 0)
      (pvStoreCreate Sodium.toy plainHost firstEnv vaultPath [0x61] firstKey) emptyWorld
      (.ret (.ok, saved)) w ∧
    Sem.Run unlinking (commandRecoveryRotate Sodium.toy plainHost (rotation .granted) vaultPath keyPath 1) w
      (.ret .ok) w₁ ∧
    w₁.fs.OpensUnder Sodium.toy vaultPath (rotation .granted).key header ∧
    (rotation .granted).Written keyPath header.vaultId w₁.fs ∧
    Sem.Run unlinking (commandRecoveryRotate Sodium.toy plainHost (rotation ⟨.noMemory, true⟩) vaultPath
      keyPath 1) w (.ret .errNomem) w₂ ∧
    Undone vaultPath keyPath w.fs w₂.fs := by
  obtain ⟨saved, w, hcreate, hstage⟩ := firstStage
  obtain ⟨w₁, header, hrun, hopens, hnonce⟩ := rotation_committed hstage
  obtain ⟨w₂, hrun'⟩ := rotation_refused hstage
  have hfin := hstage.orderly.finished
  have hidle : w.Idle 0 := by
    rw [World.Idle, World.locksOf, hstage.orderly.unlocked]
    rfl
  refine ⟨saved, w, w₁, w₂, header, hcreate, hrun, hopens, ?_, hrun',
    (rotation_never_strands Sodium.toy_injective plainHost hidle hfin hrun').2 .errNomem rfl
      (by decide) (by decide)⟩
  rcases (rotation_never_strands Sodium.toy_injective plainHost hidle hfin hrun).1 header hopens with
    ⟨data, vmk, disk, hentry, hreads, rfl, -⟩ | hwritten
  · -- the old vault has the nonce of its own snapshot
    have hold := hstage.orderly.settled.leadsTo.at.entry_eq.trans hstage.holds.active
    rw [← Slot.holds.inj (hold.symm.trans hentry)] at hreads
    exact absurd ((writtenSnapshot_header hreads).2.symm.trans hnonce) (by decide)
  · exact hwritten

end PVault
