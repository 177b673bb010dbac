import PVault.Open
import PVault.Publish

/-!
# Backups and their retention (`src/store.c`)

Before a snapshot is replaced it is copied into the directory `backups`, under the name of
its generation; after the replacement the surplus oldest backups of the vault are removed.

Here are the programs, and what is known of the directory they work in; what pruning removes
is the subject of the next module.
-/

namespace PVault

open Binary Conc

/-! ## A private directory -/

/-- The part of `make_private_directory_at` after `mkdirat`. -/
def openPrivateDirectory (parent : Nat) (name : Bytes) (created : Bool) :
    FileM (Except PvStatus Nat) := do
  match ← sys (.openDirAt parent name) with
  | .error _ => return .error .errIo
  | .ok d =>
    match ← sys (.statDir d) with
    | .error _ => closeAnd .errIo
    | .ok st =>
      if st.own = false then
        closeAnd .errIo
      else
        match ← sys (.chmodDir d 0o700) with
        | .error _ => closeAnd .errIo
        | .ok _ =>
          match ← sys (.statDir d) with
          | .error _ => closeAnd .errIo
          | .ok st =>
            if st.mode ≠ 0o700 then
              closeAnd .errIo
            else if created = true then
              match ← sys (.fsyncDir parent) with
              | .error _ => closeAnd .errIo
              | .ok _ => return .ok d
            else
              return .ok d

/-- `make_private_directory_at`. -/
def makePrivateDirectoryAt (parent : Nat) (name : Bytes) : FileM (Except PvStatus Nat) := do
  match ← sys (.mkdirAt parent name) with
  | .ok _ => openPrivateDirectory parent name true
  | .error .eexist => openPrivateDirectory parent name false
  | .error _ => return .error .errIo

/-! ## Validating a backup -/

section Store

variable {Hash : Type} (so : Sodium Hash) (host : Host)

/-- The part of `validate_automatic_backup_entry` after the file was read. -/
def authenticateBackup (env : OpenEnv) (vaultId : Block pvVaultIdBytes) (vmk : Block pvWrapKeyBytes)
    (generation : Nat) (disk : DiskFile Hash) : PvStatus :=
  match pvCryptoDecryptBody so disk.header vmk disk.ciphertext env.body with
  | (.ok, plaintext) =>
    match pvModelInit so.zeroHash [0x2e] env.arena env.vmk with
    | .error status => status
    | .ok decoded =>
      match cborDecode env.decode plaintext decoded with
      | (.ok, decoded) =>
        if disk.header.vaultId ≠ vaultId ∨ decoded.generation.toNat ≠ generation then .errAuth
        else .ok
      | (status, _) => status
  | (status, _) => status

/-- `validate_automatic_backup_entry`. -/
def validateAutomaticBackupEntry (env : OpenEnv) (d : Nat) (name : Bytes)
    (vaultId : Block pvVaultIdBytes) (vmk : Block pvWrapKeyBytes) (generation : Nat) :
    FileM (Except PvStatus Stat) := do
  match ← readDiskFileAt so host d name with
  | .error status => return .error status
  | .ok disk =>
    if authenticateBackup so env vaultId vmk generation disk = .ok then return .ok disk.stat
    else return .error (authenticateBackup so env vaultId vmk generation disk)

/-! ## Pruning -/

/-- `pv_backup_candidate`. -/
structure Candidate where
  name : Bytes
  generation : Nat
  /-- device and inode number -/
  node : Node
  deriving DecidableEq

/-- `compare_backup_candidates`: the first does not come after the second. -/
def Candidate.le (a b : Candidate) : Bool :=
  decide (a.generation < b.generation ∨ a.generation = b.generation ∧ a.name ≤ b.name)

/-- What `prune_automatic_backups` is given. -/
structure PruneTask where
  dir : Nat
  vaultId : Block pvVaultIdBytes
  vmk : Block pvWrapKeyBytes
  maximumGeneration : Nat
  retention : Nat
  /-- the memory and environment at each entry -/
  env : Bytes → OpenEnv

/-- The next capacity of the array of candidates, and its size in bytes. -/
def growCandidates (capacity : Nat) : Option (Nat × Nat) :=
  let next := if capacity = 0 then 32 else capacity * 2 % 2 ^ 64
  if next < capacity then none else (pvSizeMul next 96).map (next, ·)

/-- The loop over the directory. -/
def scanBackups (task : PruneTask) :
    List Bytes → Nat → List Candidate → FileM (Except PvStatus (List Candidate))
  | [], _, found => return .ok found
  | name :: rest, capacity, found =>
    match parseAutomaticBackupName name with
    | none => scanBackups task rest capacity found
    | some (id, generation) =>
      if id ≠ task.vaultId then
        scanBackups task rest capacity found
      else do
        match ← sys (.statAt task.dir name) with
        | .error _ => return .error .errIo
        | .ok listed =>
          if ¬listed.isPrivate then
            return .error .errIo
          else
            match ← validateAutomaticBackupEntry so host (task.env name) task.dir name task.vaultId
                task.vmk generation with
            | .error status => return .error status
            | .ok opened =>
              if listed.node ≠ opened.node then
                return .error .errIo
              else if opened.mode = 0o400 ∨ generation > task.maximumGeneration then
                scanBackups task rest capacity found
              else if found.length = capacity then
                match growCandidates capacity with
                | none => return .error .errLimit
                | some (next, bytes) =>
                  match ← sys (.malloc bytes) with
                  | .error _ => return .error .errNomem
                  | .ok _ => scanBackups task rest next (found ++ [⟨name, generation, opened.node⟩])
              else
                scanBackups task rest capacity (found ++ [⟨name, generation, opened.node⟩])

/-- Whether a candidate is still the private file that was found. -/
def recheckCandidate (d : Nat) (c : Candidate) : FileM Bool := do
  match ← sys (.statAt d c.name) with
  | .error _ => return false
  | .ok current => return decide (current.isPrivate ∧ current.node = c.node)

/-- The first pass over the surplus. -/
def recheckAll (d : Nat) : List Candidate → FileM PvStatus
  | [] => return .ok
  | c :: rest => do
    if ← recheckCandidate d c then recheckAll d rest else return .errIo

/-- The second pass over the surplus: the status, and whether a file was removed. -/
def removeAll (d : Nat) : List Candidate → Bool → FileM (PvStatus × Bool)
  | [], deleted => return (.ok, deleted)
  | c :: rest, deleted => do
    if ← recheckCandidate d c then
      match ← sys (.unlinkAt d c.name) with
      | .error _ => return (.errIo, deleted)
      | .ok _ => removeAll d rest true
    else
      return (.errIo, deleted)

/-- The end of `prune_automatic_backups`: sync the directory if a file was removed, and
close it. -/
def finishPruning (d : Nat) (status : PvStatus) (deleted : Bool) : FileM PvStatus :=
  if deleted = true then do
    match ← sys (.fsyncDir d) with
    | .error _ => closing (if status = .ok then .errDurability else status)
    | .ok _ => closing status
  else
    closing status

/-- `prune_automatic_backups`. Opening the directory again and reading it to the end is one
call, `listDir`. -/
def pruneAutomaticBackups (task : PruneTask) : FileM PvStatus :=
  if task.maximumGeneration = 0 ∨ task.retention = 0 then
    return .errUsage
  else do
    match ← sys (.statDir task.dir) with
    | .error _ => return .errIo
    | .ok st =>
      if st.own = false ∨ st.mode ≠ 0o700 then
        return .errIo
      else
        match ← sys (.listDir task.dir) with
        | .error _ => return .errIo
        | .ok names =>
          match ← scanBackups so host task names 0 [] with
          | .error status => finishPruning task.dir status false
          | .ok found =>
            if found.length ≤ task.retention then
              finishPruning task.dir .ok false
            else
              let surplus := (found.mergeSort Candidate.le).take (found.length - task.retention)
              let status ← recheckAll task.dir surplus
              if status ≠ .ok then
                finishPruning task.dir status false
              else
                let (status, deleted) ← removeAll task.dir surplus false
                finishPruning task.dir status deleted

end Store

/-! ## What a private directory is -/

section Specs

variable {faults : Bool} {G : Fs → Fs → Prop} {fs : Fs}

/-- The name can be turned into a private directory. -/
def Fs.CanHost (fs : Fs) (parent : Nat) (name : Bytes) : Prop :=
  fs.lookup parent name = none ∧ parent < fs.dirs.length ∨
    ∃ d dir, fs.lookup parent name = some (.dir d) ∧ fs.dirs[d]? = some dir ∧ dir.own = true

/-- What `make_private_directory_at` may have answered. -/
structure DirectoryResult (faults : Bool) (parent : Nat) (name : Bytes) (fs fs' : Fs)
    (r : Except PvStatus Nat) : Prop where
  made : Fs.Made parent name fs fs'
  ok : ∀ d, r = .ok d → fs.CanHost parent name ∧ fs'.lookup parent name = some (.dir d) ∧
    fs'.statDir d = some ⟨true, 0o700⟩
  error : ∀ status, r = .error status →
    status = .errIo ∧ (faults = false → ¬fs.CanHost parent name)

theorem Fs.act_statDir {fs : Fs} {d : Nat} {st : DirStat}
    (h : (fs.act (.statDir d)).1 = .ok st) : fs.statDir d = some st := by
  rw [Fs.statDir]
  simp only [Fs.act] at h
  split at h
  · next hdir =>
    cases h
    rw [hdir]
    rfl
  · cases h

/-- The directory behind an existing name is made private. -/
theorem openPrivateDirectory_spec {parent : Nat} {name : Bytes} {created : Bool} {fs₀ : Fs}
    (hG : ∀ fs, G fs fs)
    (hmade : ∀ a b, Fs.Made parent name fs₀ a → Fs.Made parent name a b → G a b)
    (hstart : Fs.Made parent name fs₀ fs)
    (hhost : faults = false → fs₀.CanHost parent name →
      ∃ d, fs.lookup parent name = some (.dir d) ∧ ∃ mode, fs.statDir d = some ⟨true, mode⟩)
    (hhosted : ∀ d st, fs.lookup parent name = some (.dir d) → fs.statDir d = some st →
      st.own = true → fs₀.CanHost parent name) :
    (files faults Alone G).wp (openPrivateDirectory parent name created)
      (fun r fs' => DirectoryResult faults parent name fs₀ fs' r) fs := by
  have hclose : ∀ {fs₁}, Fs.Made parent name fs₀ fs₁ →
      (faults = false → ¬fs₀.CanHost parent name) →
      (files faults Alone G).wp (closeAnd .errIo)
        (fun r fs' => DirectoryResult faults parent name fs₀ fs' r) fs₁ := by
    intro fs₁ hmade₁ hwhy
    refine Sem.wp_mono (closeAnd_spec hG) ?_
    rintro r fs₂ ⟨hrely, rfl⟩
    obtain rfl : fs₂ = fs₁ := hrely
    refine ⟨hmade₁, fun d h => (by cases h), fun status h => ?_⟩
    cases h
    exact ⟨rfl, hwhy⟩
  refine wp_query rfl hG (fun fs₁ e hrely he => ?_) fun fs₁ d hrely hopen => ?_
  · obtain rfl : fs₁ = fs := hrely
    refine ⟨hstart, fun d h => (by cases h), fun status h => ?_⟩
    cases h
    refine ⟨rfl, fun hfalse hcan => ?_⟩
    obtain ⟨d, hlook, -⟩ := hhost hfalse hcan
    have hact := he hfalse
    simp only [Fs.act, hlook] at hact
    cases hact
  obtain rfl : fs₁ = fs := hrely
  have hlook : fs₁.lookup parent name = some (.dir d) := by
    simp only [Fs.act] at hopen
    split at hopen
    · next heq => cases hopen; exact heq
    · cases hopen
    · cases hopen
  -- The directory that can be hosted is the one that was opened.
  have hown : faults = false → fs₀.CanHost parent name →
      ∃ mode, fs₁.statDir d = some ⟨true, mode⟩ := by
    intro hfalse hcan
    obtain ⟨d', hlook', hstat⟩ := hhost hfalse hcan
    rw [hlook] at hlook'
    cases hlook'
    exact hstat
  refine wp_query rfl hG (fun fs₂ e hrely he => ?_) fun fs₂ st hrely hstat => ?_
  · obtain rfl : fs₂ = fs₁ := hrely
    refine hclose hstart fun hfalse hcan => ?_
    obtain ⟨mode, hmode⟩ := hown hfalse hcan
    have hact := he hfalse
    rw [Fs.statDir] at hmode
    obtain ⟨dir, hdir, -⟩ := Option.map_eq_some_iff.mp hmode
    simp only [Fs.act, hdir] at hact
    cases hact
  obtain rfl : fs₂ = fs₁ := hrely
  have hstat' := Fs.act_statDir hstat
  dsimp only
  split
  · next hforeign =>
    refine hclose hstart fun hfalse hcan => ?_
    obtain ⟨mode, hmode⟩ := hown hfalse hcan
    rw [hstat'] at hmode
    cases hmode
    cases hforeign
  next hmine =>
  have hmine : st.own = true := by simpa using hmine
  refine wp_plain rfl (fun fs₃ e hrely he => ?_) fun fs₃ _ hrely _ => ?_
  · obtain rfl : fs₃ = fs₂ := hrely
    refine ⟨hG fs₃, hclose hstart fun hfalse _ => ?_⟩
    cases he hfalse
  obtain rfl : fs₃ = fs₂ := hrely
  have hchmod : Fs.Made parent name fs₃ (fs₃.chmodDir d 0o700) := Fs.made_chmodDir hlook
  rw [show (fs₃.act (.chmodDir d 0o700)).2 = fs₃.chmodDir d 0o700 from rfl]
  refine ⟨hmade _ _ hstart hchmod, ?_⟩
  have hmade₃ := hstart.trans hchmod
  have hprivate : (fs₃.chmodDir d 0o700).statDir d = some ⟨true, 0o700⟩ := by
    rw [Fs.statDir_chmodDir, hstat']
    simp [hmine]
  have hlook₃ : (fs₃.chmodDir d 0o700).lookup parent name = some (.dir d) :=
    Fs.lookup_chmodDir.trans hlook
  refine wp_query rfl hG (fun fs₄ e hrely he => ?_) fun fs₄ st' hrely hstat₄ => ?_
  · obtain rfl := hrely
    refine hclose hmade₃ fun hfalse _ => ?_
    have hact := he hfalse
    obtain ⟨dir, hdir, -⟩ := Option.map_eq_some_iff.mp hprivate
    simp only [Fs.act, hdir] at hact
    cases hact
  obtain rfl := hrely
  have hmode := Fs.act_statDir hstat₄
  rw [hprivate] at hmode
  cases hmode
  dsimp only
  rw [if_neg fun hne => hne rfl]
  have hdone : DirectoryResult faults parent name fs₀ (fs₃.chmodDir d 0o700) (.ok d) := by
    refine ⟨hmade₃, fun d' h => ?_, fun status h => by cases h⟩
    cases h
    exact ⟨hhosted d st hlook hstat' hmine, hlook₃, hprivate⟩
  split
  · refine wp_query rfl hG (fun fs₅ e hrely he => ?_) fun fs₅ _ hrely _ => ?_
    · obtain rfl := hrely
      refine hclose hmade₃ fun hfalse _ => ?_
      cases he hfalse
    · obtain rfl := hrely
      exact hdone
  · exact hdone

/-- **`make_private_directory_at`** makes or finds a directory and makes it private. -/
theorem makePrivateDirectoryAt_spec {parent : Nat} {name : Bytes} (hG : ∀ fs, G fs fs)
    (hmade : ∀ a b, Fs.Made parent name fs a → Fs.Made parent name a b → G a b) :
    (files faults Alone G).wp (makePrivateDirectoryAt parent name)
      (fun r fs' => DirectoryResult faults parent name fs fs' r) fs := by
  refine wp_plain rfl (fun fs₁ e hrely he => ?_) fun fs₁ _ hrely hact => ?_
  · obtain rfl : fs₁ = fs := hrely
    refine ⟨hG fs₁, ?_⟩
    have hexists : faults = false → fs₁.CanHost parent name → e = .eexist ∧
        ∃ d dir, fs₁.lookup parent name = some (.dir d) ∧ fs₁.dirs[d]? = some dir ∧
          dir.own = true := by
      intro hfalse hcan
      have hact := he hfalse
      rcases hcan with ⟨hnone, hlt⟩ | ⟨d, dir, hlook, hdir, hown⟩
      · simp only [Fs.act, hnone, hlt, if_true] at hact
        cases hact
      · simp only [Fs.act, hlook] at hact
        cases hact
        exact ⟨rfl, d, dir, hlook, hdir, hown⟩
    have hother : e ≠ .eexist → DirectoryResult faults parent name fs₁ fs₁ (.error .errIo) := by
      intro hne
      refine ⟨Fs.Made.refl _, fun d h => (by cases h), fun status h => ?_⟩
      cases h
      exact ⟨rfl, fun hfalse hcan => hne (hexists hfalse hcan).1⟩
    cases e with
    | eexist =>
      refine openPrivateDirectory_spec hG hmade (Fs.Made.refl _) (fun hfalse hcan => ?_) ?_
      · obtain ⟨-, d, dir, hlook, hdir, hown⟩ := hexists hfalse hcan
        refine ⟨d, hlook, dir.mode, ?_⟩
        rw [Fs.statDir, hdir, ← hown]
        rfl
      · intro d st hlook hstat hown
        obtain ⟨dir, hdir, rfl⟩ := Option.map_eq_some_iff.mp hstat
        exact .inr ⟨d, dir, hlook, hdir, hown⟩
    | _ => exact hother (by decide)
  · obtain rfl : fs₁ = fs := hrely
    have hdid : fs₁.lookup parent name = none ∧ parent < fs₁.dirs.length ∧
        (fs₁.act (.mkdirAt parent name)).2 = fs₁.addDir parent name := by
      simp only [Fs.act] at hact ⊢
      split at hact
      · cases hact
      · next hnone =>
        split at hact
        · next hlt => exact ⟨hnone, hlt, by rw [if_pos hlt]⟩
        · cases hact
    obtain ⟨hnone, hlt, heq⟩ := hdid
    rw [heq]
    have hadd := Fs.made_addDir hlt hnone
    refine ⟨hmade _ _ (Fs.Made.refl _) hadd, openPrivateDirectory_spec hG hmade hadd (fun _ _ => ?_)
      fun _ _ _ _ _ => .inl ⟨hnone, hlt⟩⟩
    refine ⟨fs₁.dirs.length, (Fs.lookup_addDir hlt).trans (if_pos ⟨rfl, rfl⟩), 0o700, ?_⟩
    rw [Fs.statDir, Fs.addDir]
    dsimp only
    rw [List.getElem?_append_right (by rw [List.length_modify]), List.length_modify, Nat.sub_self]
    rfl

end Specs

end PVault
