import PVault.Crash

/-!
# Files the store did not make

A save works in a directory that may hold other files, under any names: one that looks like a
temporary of the vault, or like one of its automatic backups. It leaves them alone: temporaries are
created under free names only, a copy is renamed to a free name only, and what is pruned has been
read as a snapshot of the vault.

* `Fs.Sole.step` — which calls spare a file.
* `pvStoreSave_spares` — a file that is not a snapshot is the same at every point of a save.
-/

namespace PVault

open Binary Conc

/-! ## Sparing calls -/

/-- The file `i`, with the inode `n`, has this name and no other. -/
structure Fs.Sole (d : Nat) (name : Bytes) (i : Nat) (n : Inode) (fs : Fs) : Prop where
  bound : fs.lookup d name = some (.file i)
  only : ∀ e other, fs.lookup e other = some (.file i) → (e, other) = (d, name)
  inode_eq : fs.inodes[i]? = some n

/-- A call that does not write to the file `i` and does not take its name. -/
def FileOp.Spares (d : Nat) (name : Bytes) (i : Nat) : FileOp → Prop
  | .writeAt j _ _ | .chmodFile j _ | .fsyncFile j => j ≠ i
  | .renameAt e old new noReplace =>
    (e, old) ≠ (d, name) ∧ (noReplace = true ∨ (e, new) ≠ (d, name))
  | .unlinkAt e other => (e, other) ≠ (d, name)
  | .unlinkFile _ => False
  | _ => True

section Calls

variable {faults : Bool} {fs fs' : Fs} {d i : Nat} {name : Bytes} {n : Inode}

namespace Fs.Sole

variable {e j : Nat} {other : Bytes}

theorem lt (h : fs.Sole d name i n) : i < fs.inodes.length :=
  (List.getElem?_eq_some_iff.mp h.inode_eq).1

theorem node_ne (h : fs.Sole d name i n) (hne : (e, other) ≠ (d, name))
    (hlook : fs.lookup e other = some (.file j)) : j ≠ i := by
  rintro rfl
  exact hne (h.only e other hlook)

theorem create (h : fs.Sole d name i n) (hnew : fs.lookup e other = none) :
    (fs.create e other).Sole d name i n := by
  have hlook : ∀ e' other', (fs.create e other).lookup e' other' =
      if e' = e ∧ other' = other ∧ e < fs.dirs.length then some (.file fs.inodes.length)
      else fs.lookup e' other' := fun _ _ => Fs.lookup_bindFile
  refine ⟨?_, fun e' other' hfile => ?_, ?_⟩
  · rw [hlook, if_neg, h.bound]
    rintro ⟨rfl, rfl, -⟩
    exact absurd (hnew.symm.trans h.bound) nofun
  · rw [hlook] at hfile
    split at hfile
    · cases hfile
      exact absurd h.lt (lt_irrefl _)
    · exact h.only e' other' hfile
  · show (fs.inodes ++ [newInode])[i]? = some n
    rw [List.getElem?_append_left h.lt, h.inode_eq]

theorem made (h : fs.Sole d name i n) (hmade : Fs.Made e other fs fs') :
    fs'.Sole d name i n where
  bound := (hmade.lookup_eq d name (.inl (by rw [h.bound]; exact nofun))).trans h.bound
  only e' other' hfile := h.only e' other' (hmade.lookup_file hfile)
  inode_eq := by rw [hmade.inodes_eq, h.inode_eq]

theorem setInode {f : Inode → Inode} (h : fs.Sole d name i n) (hne : j ≠ i) :
    (fs.setInode j f).Sole d name i n where
  bound := h.bound
  only := h.only
  inode_eq := by
    rw [Fs.inodes_setInode, h.inode_eq]
    simp [hne]

theorem dropLink {node : Option Node} (h : fs.Sole d name i n) (hne : node ≠ some (.file i)) :
    (fs.dropLink node).Sole d name i n where
  bound := h.bound
  only := h.only
  inode_eq := by rw [Fs.inodes_dropLink, h.inode_eq, Option.map_some, if_neg hne]

theorem unbind (h : fs.Sole d name i n) (hne : (e, other) ≠ (d, name)) :
    (fs.unbind e other).Sole d name i n where
  bound := by
    rw [Fs.lookup_unbind, if_neg, h.bound]
    rintro ⟨rfl, rfl⟩
    exact hne rfl
  only e' other' hfile := by
    rw [Fs.lookup_unbind] at hfile
    split at hfile
    · cases hfile
    · exact h.only e' other' hfile
  inode_eq := h.inode_eq

theorem bindFile (h : fs.Sole d name i n) (hne : (e, other) ≠ (d, name)) (hj : j ≠ i) :
    (fs.bindFile e other j).Sole d name i n where
  bound := by
    rw [Fs.lookup_bindFile, if_neg, h.bound]
    rintro ⟨rfl, rfl, -⟩
    exact hne rfl
  only e' other' hfile := by
    rw [Fs.lookup_bindFile] at hfile
    split at hfile
    · cases hfile
      exact absurd rfl hj
    · exact h.only e' other' hfile
  inode_eq := h.inode_eq

theorem rename {old new : Bytes} (h : fs.Sole d name i n) (hj : j ≠ i)
    (hold : (e, old) ≠ (d, name)) (hnew : (e, new) ≠ (d, name)) :
    (fs.rename e old new j).Sole d name i n := by
  have hdrop : fs.lookup e new ≠ some (.file i) := fun hlook => hnew (h.only e new hlook)
  have hmoved := (((h.dropLink hdrop).setInode (f := fun node => { node with published := true })
    hj).unbind hold).bindFile hnew hj
  exact ⟨hmoved.bound, hmoved.only, hmoved.inode_eq⟩

theorem unlink (h : fs.Sole d name i n) (hne : (e, other) ≠ (d, name)) {node : Node}
    (hlook : fs.lookup e other = some node) :
    ((fs.dropLink (some node)).unbind e other).Sole d name i n := by
  refine (h.dropLink fun heq => hne (h.only e other ?_)).unbind hne
  rw [hlook, Option.some.inj heq]

/-- **A sparing call** leaves the file as it is. -/
theorem step {op : FileOp} {r : FileRes op} (h : fs.Sole d name i n) (hop : op.Spares d name i)
    (hstep : Fs.Step faults fs op r fs') : fs'.Sole d name i n := by
  cases hstep with
  | fails => exact h
  | lists => exact h
  | readsLess => exact h
  | writesLess => exact h.setInode hop
  | acts =>
  cases op with
  | writeAt j offset data => exact h.setInode hop
  | chmodFile j mode => exact h.setInode hop
  | fsyncFile j => exact h.setInode hop
  | unlinkFile path => exact hop.elim
  | chmodDir e mode =>
    exact ⟨Fs.lookup_chmodDir.trans h.bound,
      fun e' other hfile => h.only e' other (Fs.lookup_chmodDir.symm.trans hfile), h.inode_eq⟩
  | mkdirPath path =>
    simp only [Fs.act]
    repeat' split
    all_goals first
      | exact h
      | exact h.made (Fs.made_addDir (by tauto) (by tauto))
  | mkdirAt e other =>
    simp only [Fs.act]
    repeat' split
    all_goals first
      | exact h
      | exact h.made (Fs.made_addDir ‹_› ‹_›)
  | createFile path =>
    simp only [Fs.act]
    repeat' split
    all_goals first
      | exact h
      | exact h.create ‹_›
  | createAt e other =>
    simp only [Fs.act]
    repeat' split
    all_goals first
      | exact h
      | exact h.create ‹_›
  | unlinkAt e other =>
    simp only [Fs.act]
    repeat' split
    all_goals first
      | exact h
      | exact h.unlink hop ‹_›
  | renameAt e old new noReplace =>
    simp only [Fs.act]
    split
    · next j hold hnew =>
      refine h.rename (h.node_ne hop.1 hold) hop.1 fun heq => ?_
      obtain ⟨rfl, rfl⟩ := Prod.mk.inj heq
      exact absurd (hnew.symm.trans h.bound) (Option.some_ne_none _).symm
    · exact h
    · next j node _ hold hnew =>
      split
      · exact h
      · next hreplace =>
        exact h.rename (h.node_ne hop.1 hold) hop.1 (hop.2.resolve_left hreplace)
    · exact h
    · exact h
  | _ =>
    simp only [Fs.act]
    repeat' split
    all_goals exact h

end Fs.Sole

end Calls

/-! ## Sparing programs -/

/-- Programs by themselves, every call of which may fail, but none of which harms the file. -/
abbrev sparing (d : Nat) (name : Bytes) (i : Nat) (n : Inode) : Sem FileRes Fs :=
  files true Alone fun a b => a.Sole d name i n → b.Sole d name i n

/-- The program harms the file at none of its points. -/
abbrev SparesFile (d : Nat) (name : Bytes) (i : Nat) (n : Inode) {α : Type} (p : FileM α) : Prop :=
  (sparing d name i n).Keeps (Fs.Sole d name i n) p

section Programs

variable {d i : Nat} {name : Bytes} {n : Inode} {α : Type}
variable {p : FileM α} {j : Nat} {fs : Fs}

/-- A sparing call, and what follows. -/
theorem keeps_call {op : FileOp} {k : FileRes op → FileM α} (hop : op.Spares d name i)
    (hk : ∀ r, SparesFile d name i n (k r)) : SparesFile d name i n (sys op >>= k) := by
  intro fs h fs₁ hrely r fs₂ hstep
  obtain rfl : fs₁ = fs := hrely
  exact ⟨fun h₁ => h₁.step hop hstep, hk r fs₂ (h.step hop hstep)⟩

/-- A program of sparing calls. -/
theorem keeps_only {T : α → Prop} (hp : p.Only (FileOp.Spares d name i) T) :
    SparesFile d name i n p := by
  intro fs h
  refine Sem.wp_mono (Sem.wp_only (A := Fs.Sole d name i n) rfl ?_ ?_ hp h) fun _ _ h => h.2
  · rintro a b ha hsame
    rwa [show b = a from hsame]
  · exact fun a op r b ha hop hstep => ⟨fun h => h.step hop hstep, ha.step hop hstep⟩

/-- Whatever else is known of a program, the file is still there at its end. -/
theorem wp_spares {Q : α → Fs → Prop} (h : fs.Sole d name i n)
    (hp : (sparing d name i n).wp p Q fs) :
    (sparing d name i n).wp p (fun a fs' => fs'.Sole d name i n ∧ Q a fs') fs := by
  refine Sem.wp_invariant (S := sparing d name i n) ?_ (fun a b ha hg => ⟨hg ha, hg⟩) hp h
  rintro a b ha hsame
  rwa [show b = a from hsame]

theorem keeps_of_wp {Q : Fs → α → Fs → Prop}
    (hp : ∀ fs, fs.Sole d name i n → (sparing d name i n).wp p (Q fs) fs) :
    SparesFile d name i n p :=
  fun fs h => Sem.wp_mono (wp_spares h (hp fs h)) fun _ _ h => h.1

theorem keeps_closing (status : PvStatus) : SparesFile d name i n (closing status) :=
  keeps_of_wp fun _ _ => closing_spec fun _ h => h

theorem only_writeLoop (host : Host) (hj : j ≠ i) (passes : Nat) :
    ∀ (offset : Nat) (data : Bytes),
      (writeLoop host j passes offset data).Only (FileOp.Spares d name i) fun _ => True := by
  induction passes with
  | zero => exact fun _ _ => trivial
  | succ passes ih =>
    intro offset data
    rw [writeLoop]
    split
    · trivial
    · have hop : (FileOp.writeAt j offset data).Spares d name i := hj
      refine (only_retry hop host.patience).bind fun r _ => ?_
      cases r with
      | error e => trivial
      | ok written =>
        dsimp only
        split
        · trivial
        · exact ih _ _

theorem only_fillSnapshot (host : Host) (header : Block pvFileHeaderLen) (ciphertext : Bytes)
    (hj : j ≠ i) :
    (fillSnapshot host header ciphertext j).Only (FileOp.Spares d name i) fun _ => True := by
  refine (only_writeLoop host hj _ _ _).bind fun status _ => ?_
  split
  · trivial
  · exact only_writeLoop host hj _ _ _

theorem only_fillSnapshotMode (host : Host) (header : Block pvFileHeaderLen) (ciphertext : Bytes)
    (mode : Nat) (hj : j ≠ i) :
    (fillSnapshotMode host header ciphertext mode j).Only (FileOp.Spares d name i) fun _ => True := by
  refine (only_fillSnapshot host header ciphertext hj).bind fun status _ => ?_
  split
  · trivial
  · exact Prog.only_perform_bind hj fun r => by cases r <;> trivial

theorem only_checkTemporary (j : Nat) :
    (checkTemporary j).Only (FileOp.Spares d name i) fun _ => True :=
  Prog.only_perform_bind trivial fun r => by cases r <;> trivial

theorem only_fillTemporary {fill : Nat → FileM PvStatus} (hj : j ≠ i)
    (hfill : (fill j).Only (FileOp.Spares d name i) fun _ => True) :
    (fillTemporary j fill).Only (FileOp.Spares d name i) fun _ => True := by
  refine (only_checkTemporary j).bind fun status _ => ?_
  split
  · trivial
  refine hfill.bind fun status _ => ?_
  split
  · trivial
  refine (only_checkTemporary j).bind fun status _ => ?_
  split
  · trivial
  · exact Prog.only_perform_bind hj fun r => by cases r <;> trivial

/-- A temporary is new: another file under another name. -/
theorem openTemporary_spares (host : Host) (e : Nat) (other : Bytes) (attempts : Nat)
    (h : fs.Sole d name i n) :
    (sparing d name i n).wp (openTemporary host e other attempts) (fun r fs' => fs'.Sole d name i n ∧
      ∀ suffix j, r = .ok (suffix, j) → (e, temporaryName other suffix) ≠ (d, name) ∧ j ≠ i) fs := by
  induction attempts with
  | zero => exact ⟨h, fun _ _ hr => by cases hr⟩
  | succ attempts ih =>
    rw [openTemporary]
    split
    · exact ⟨h, fun _ _ hr => by cases hr⟩
    refine wp_plain rfl (fun fs₁ err hrely _ => ?_) fun fs₁ j hrely hact => ?_
    · obtain rfl : fs₁ = fs := hrely
      refine ⟨fun h => h, ?_⟩
      cases err with
      | eexist => exact ih
      | _ => exact ⟨h, fun _ _ hr => by cases hr⟩
    · obtain rfl : fs₁ = fs := hrely
      obtain ⟨hnew, -, rfl, heq⟩ := Fs.act_createAt_ok hact
      rw [heq]
      refine ⟨fun h => h.create hnew, h.create hnew, ?_⟩
      rintro suffix j hr
      cases hr
      refine ⟨fun hsame => ?_, Nat.ne_of_gt h.lt⟩
      obtain ⟨rfl, rfl⟩ := Prod.mk.inj hsame
      exact absurd (hnew.symm.trans h.bound) (Option.some_ne_none _).symm

/-- **Publishing a file spares the others.** -/
theorem publishAt_spares (host : Host) {e : Nat} {other : Bytes} {fill : Nat → FileM PvStatus}
    {input noReplace : Bool} {unsynced : PvStatus}
    (hfill : ∀ j, j ≠ i → (fill j).Only (FileOp.Spares d name i) fun _ => True)
    (hname : noReplace = true ∨ (e, other) ≠ (d, name)) :
    SparesFile d name i n (publishAt host e other fill input noReplace unsynced) := by
  have hinput : ∀ status, SparesFile d name i n (closingInput input status) := by
    intro status
    rw [closingInput]
    split
    · exact keeps_closing status
    · exact Sem.keeps_ret status
  intro fs h
  refine Sem.wp_then (openTemporary_spares host e other 32 h) ?_
  rintro r fs₁ ⟨h₁, hnew⟩
  cases r with
  | error status => exact hinput status fs₁ h₁
  | ok found =>
  obtain ⟨suffix, j⟩ := found
  obtain ⟨hother, hj⟩ := hnew suffix j rfl
  have hdiscard : ∀ status, SparesFile d name i n (discard e (temporaryName other suffix) status) :=
    fun status => keeps_call hother fun _ => Sem.keeps_ret status
  refine Sem.wp_then (keeps_only (only_fillTemporary hj (hfill j hj)) fs₁ h₁) fun status fs₂ h₂ => ?_
  refine Sem.wp_then (hinput status fs₂ h₂) fun status fs₃ h₃ => ?_
  refine Sem.wp_then (keeps_closing status fs₃ h₃) fun status fs₄ h₄ => ?_
  split
  · exact hdiscard status fs₄ h₄
  have hrename : (FileOp.renameAt e (temporaryName other suffix) other noReplace).Spares d name i :=
    ⟨hother, hname⟩
  refine keeps_call hrename (fun r => ?_) fs₄ h₄
  cases r with
  | error err => exact hdiscard _
  | ok _ => exact keeps_call trivial fun r => by cases r <;> exact Sem.keeps_ret _

end Programs

/-! ## Saving -/

theorem Fs.Sole.pruned {fs fs' : Fs} {d e i : Nat} {name : Bytes} {n : Inode} {P : Bytes → Prop}
    (h : fs.Sole d name i n) (hpruned : Fs.Pruned e P fs fs') (hP : e = d → ¬P name) :
    fs'.Sole d name i n where
  bound := (hpruned.lookup_eq d name fun hbad => hP hbad.1.symm hbad.2).trans h.bound
  only e' other hfile := h.only e' other (hpruned.lookup_of_bound hfile)
  inode_eq := by
    obtain ⟨m, hm, -, rfl | ⟨other, hother, hlook⟩⟩ := hpruned.files i n h.inode_eq
    · exact hm
    · obtain ⟨rfl, rfl⟩ := Prod.mk.inj (h.only e other hlook)
      exact absurd hother (hP rfl)

section Saving

variable {Hash : Type} {so : Sodium Hash} {host : Host} {d i : Nat} {name : Bytes}
  {n : Inode}

/-- Pruning removes snapshots only. -/
theorem pruneAutomaticBackups_spares (task : PruneTask)
    (hforeign : ∀ disk : DiskFile Hash, ¬disk.Reads so n.data) :
    SparesFile d name i n (pruneAutomaticBackups so host task) := by
  by_cases husage : task.maximumGeneration = 0 ∨ task.retention = 0
  · rw [pruneAutomaticBackups, if_pos husage]
    exact Sem.keeps_ret _
  refine keeps_of_wp (Q := fun _ _ _ => True) fun fs h => ?_
  -- A backup in order is a snapshot, and the file is none.
  have hother : task.dir = d → ¬(task.Older name ∧ task.InOrder so fs name) := by
    rintro rfl ⟨⟨generation, hparse, -⟩, horder⟩
    obtain ⟨disk, ⟨j, m, hlook, hm, -, hreads, -⟩, -⟩ := horder generation hparse
    obtain rfl : i = j := by
      rw [h.bound] at hlook
      cases hlook
      rfl
    obtain rfl : n = m := by
      rw [h.inode_eq] at hm
      exact Option.some.inj hm
    exact hforeign disk hreads
  exact Sem.wp_mono (pruneAutomaticBackups_result so host (fun a b hpruned ha =>
    ha.pruned hpruned hother) (by omega) (by omega)) fun _ _ _ => trivial

theorem keeps_closeBackups (backups : Option Nat) :
    SparesFile d name i n (closeBackups backups) := by
  cases backups with
  | none => exact Sem.keeps_ret ()
  | some e => exact keeps_call trivial fun _ => Sem.keeps_ret ()

theorem keeps_readDiskFileAt (e : Nat) (other : Bytes) :
    SparesFile d name i n (readDiskFileAt so host e other) :=
  keeps_of_wp fun _ _ => readDiskFileAt_alone so host fun _ h => h

theorem keeps_revalidate (path : Bytes) (held : Location) :
    SparesFile d name i n (revalidateStoreLocation path held) :=
  keeps_of_wp fun _ _ => revalidateStoreLocation_spec (fun _ h => h) alone_refl alone_trans

theorem settleBackup_spares [DecidableEq Hash] (e : Nat) (other : Bytes)
    (vaultId : Block pvVaultIdBytes) (snapshot : DiskFile Hash) (status : PvStatus) :
    SparesFile d name i n (settleBackup so host e other vaultId snapshot status) := by
  rw [settleBackup.eq_def]
  split
  · exact Sem.keeps_ret _
  · refine (keeps_readDiskFileAt e other).bind fun r => ?_
    cases r with
    | error status => exact Sem.keeps_ret _
    | ok existing =>
      refine Sem.Keeps.ite (Sem.keeps_ret _) (keeps_call trivial fun r => ?_)
      cases r <;> exact Sem.keeps_ret _
  · exact Sem.keeps_ret _

theorem automaticBackup_spares [DecidableEq Hash] (location : Location)
    (vaultId : Block pvVaultIdBytes) (snapshot : DiskFile Hash) (generation : UInt64) :
    SparesFile d name i n (automaticBackup so host location vaultId snapshot generation) := by
  have hdir : SparesFile d name i n (makePrivateDirectoryAt location.dir backupsName) :=
    keeps_of_wp fun fs h => makePrivateDirectoryAt_spec (fun _ h => h) fun a b _ hmade ha => ha.made hmade
  refine hdir.bind fun r => ?_
  cases r with
  | error status => exact Sem.keeps_ret _
  | ok e =>
  dsimp only
  split
  · exact Sem.keeps_ret _
  · next copy _ =>
    have hcopy : SparesFile d name i n (writeSnapshotExclusiveAt host e copy
        snapshot.headerBytes snapshot.ciphertext 0o600) := by
      rw [writeSnapshotExclusiveAt]
      refine Sem.Keeps.ite (Sem.keeps_ret _) ?_
      exact publishAt_spares host (fun j hj => only_fillSnapshotMode host _ _ _ hj) (.inl rfl)
    refine hcopy.bind fun status => (settleBackup_spares e copy vaultId snapshot status).bind fun status => ?_
    exact Sem.Keeps.ite (keeps_call trivial fun _ => Sem.keeps_ret _) (Sem.keeps_ret _)

theorem confirmSave_spares [DecidableEq Hash] (env : SaveEnv) (location : Location) (vault : Vault Hash)
    (header : FileHeader) (ciphertext : Bytes) (previous : UInt64) (retention : Nat)
    (backups : Option Nat) (warned : Bool)
    (hforeign : ∀ disk : DiskFile Hash, ¬disk.Reads so n.data) :
    SparesFile d name i n (confirmSave so host env location vault header
      ciphertext previous retention backups warned) := by
  have hread : SparesFile d name i n
      (readBack so host location (pvHeaderEncode header (Block.zero _)) ciphertext) := by
    refine (keeps_readDiskFileAt _ _).bind fun r => ?_
    cases r <;> exact Sem.keeps_ret _
  have hprune : ∀ vault warning, SparesFile d name i n
      (pruneAfterSave so host env vault previous retention warning backups) := by
    intro vault warning
    cases backups with
    | none => exact Sem.keeps_ret ()
    | some e =>
      exact Sem.Keeps.ite (Sem.keeps_ret ())
        ((pruneAutomaticBackups_spares _ hforeign).bind fun _ => Sem.keeps_ret ())
  refine hread.bind fun r => (keeps_revalidate _ _).bind fun valid => ?_
  cases r with
  | none => exact (keeps_closeBackups backups).bind fun _ => Sem.keeps_ret _
  | some hash =>
    exact (hprune _ _).bind fun _ => (keeps_closeBackups backups).bind fun _ => Sem.keeps_ret _

theorem abandonSave_spares (backups : Option Nat) (status : PvStatus) (vault : Vault Hash)
    (updated : Int64) (header : FileHeader) : SparesFile d name i n
      (abandonSave backups status vault updated header) :=
  (keeps_closeBackups backups).bind fun _ => Sem.keeps_ret _

theorem commitSave_spares [DecidableEq Hash] (env : SaveEnv) (location : Location) (vault : Vault Hash)
    (header : FileHeader) (retention : Nat) (createOnly : Bool) (current : Option (DiskFile Hash))
    (hforeign : ∀ disk : DiskFile Hash, ¬disk.Reads so n.data)
    (hactive : (location.dir, location.name) ≠ (d, name)) : SparesFile d name i n
      (commitSave so host env location vault header retention createOnly current) := by
  rw [commitSave]
  dsimp only
  split
  swap
  · exact abandonSave_spares none _ _ _ _
  next header' ciphertext _ =>
  have hbackup : SparesFile d name i n
      (backupCurrent so host location (vault.stamped env.now).vaultId vault.generation current) := by
    cases current with
    | none => exact Sem.keeps_ret _
    | some disk => exact automaticBackup_spares location _ disk _
  refine hbackup.bind fun r => ?_
  obtain ⟨status, backups⟩ := r
  refine Sem.Keeps.ite (abandonSave_spares _ _ _ _ _) ?_
  refine (keeps_revalidate _ _).bind fun valid => ?_
  refine Sem.Keeps.ite (abandonSave_spares _ _ _ _ _) ?_
  have hwrite : ∀ headerBytes, SparesFile d name i n
      (writeAtomicAt host location headerBytes ciphertext createOnly) := by
    intro headerBytes
    rw [writeAtomicAt]
    refine Sem.Keeps.ite (Sem.keeps_ret _) ?_
    exact publishAt_spares host (fun j hj => only_fillSnapshot host headerBytes ciphertext hj)
      (.inr hactive)
  refine (hwrite _).bind fun status => ?_
  exact Sem.Keeps.ite (confirmSave_spares env location _ header' ciphertext _ _ backups _ hforeign)
    (abandonSave_spares _ _ _ _ _)

/-- **A save leaves the other files alone**, whatever their names. -/
theorem saveLocked_spares [DecidableEq Hash] (env : SaveEnv) (location : Location) (vault : Vault Hash)
    (header : FileHeader) (retention : Nat) (createOnly : Bool)
    (hforeign : ∀ disk : DiskFile Hash, ¬disk.Reads so n.data)
    (hactive : (location.dir, location.name) ≠ (d, name)) :
    SparesFile d name i n (saveLocked so host env location vault header retention createOnly) := by
  rw [saveLocked]
  refine Sem.Keeps.ite (Sem.keeps_ret _) ?_
  have hexists : SparesFile d name i n (pathEntryExistsAt location.dir location.name) :=
    keeps_of_wp fun _ _ => pathEntryExistsAt_spec fun _ h => h
  refine hexists.bind fun r => ?_
  cases r with
  | error status => exact Sem.keeps_ret _
  | ok found =>
  refine Sem.Keeps.ite (Sem.keeps_ret _) (Sem.Keeps.ite ?_ ?_)
  · refine (keeps_readDiskFileAt _ _).bind fun r => ?_
    cases r with
    | error status => exact Sem.keeps_ret _
    | ok current =>
      exact Sem.Keeps.ite (Sem.keeps_ret _) (Sem.Keeps.ite (Sem.keeps_ret _)
        (commitSave_spares _ _ _ _ _ _ _ hforeign hactive))
  · exact commitSave_spares _ _ _ _ _ _ _ hforeign hactive

/-- The same at every point of `pv_store_save`. -/
theorem pvStoreSave_spares [DecidableEq Hash] {c : Nat} {w w' : World} {env : SaveEnv}
    {vault : Vault Hash} {header : FileHeader} {retention : Nat}
    {rest : SysM (PvStatus × Vault Hash × FileHeader)} (hidle : w.Idle c)
    (hforeign : ∀ disk : DiskFile Hash, ¬disk.Reads so n.data)
    (hactive : ∀ location, w.fs.At vault.path location → (location.dir, location.name) ≠ (d, name))
    (h : w.fs.Sole d name i n)
    (hrun : Sem.Run (alone c) (pvStoreSave so host env vault header retention) w rest w') :
    w'.fs.Sole d name i n := by
  rw [pvStoreSave] at hrun
  split at hrun
  · rw [run_ret hrun]
    exact h
  · refine underLock_invariant (I := Fs.Sole d name i n) hidle h (fun location hat => ?_) hrun
    exact Sem.wp_mono (saveLocked_spares env location vault header retention false hforeign
      (hactive location hat) w.fs h) fun _ _ _ => trivial

end Saving

/-! ## Files that were never renamed

The specifications of the store speak of files that were given their names by a rename, which
`published` records. A file that was written in place may be taken for such a file: no call can
see the difference. -/

/-- The file counts as published. -/
def Fs.mark (i : Nat) (fs : Fs) : Fs := fs.setInode i fun n => { n with published := true }

section Mark

variable {faults : Bool} {i : Nat} {fs fs' : Fs}

theorem Fs.inodes_mark (j : Nat) : (fs.mark i).inodes[j]? =
    fs.inodes[j]?.map fun n => if i = j then { n with published := true } else n :=
  Fs.inodes_setInode j

@[simp] theorem Fs.dirs_mark : (fs.mark i).dirs = fs.dirs := rfl

@[simp] theorem Fs.length_mark : (fs.mark i).inodes.length = fs.inodes.length := List.length_modify ..

@[simp] theorem Fs.lookup_mark (d : Nat) (name : Bytes) :
    (fs.mark i).lookup d name = fs.lookup d name := rfl

@[simp] theorem Fs.walk_mark (cs : List Bytes) : ∀ d, (fs.mark i).walk d cs = fs.walk d cs := by
  induction cs with
  | nil => exact fun _ => rfl
  | cons c cs ih =>
    intro d
    rw [Fs.walk, Fs.walk, Fs.lookup_mark]
    split
    · exact ih _
    · rfl

@[simp] theorem Fs.origin_mark (path : Bytes) : (fs.mark i).origin path = fs.origin path := rfl

@[simp] theorem Fs.resolve_mark (path : Bytes) : (fs.mark i).resolve path = fs.resolve path := by
  rw [Fs.resolve, Fs.walk_mark, Fs.origin_mark, Fs.resolve]

@[simp] theorem Fs.leaf_mark (path : Bytes) : (fs.mark i).leaf path = fs.leaf path := by
  simp only [Fs.leaf, Fs.walk_mark, Fs.origin_mark]

/-- Changes of inodes that do not look at the mark. -/
theorem Fs.mark_setInode (j : Nat) {f : Inode → Inode}
    (hf : ∀ n : Inode, f { n with published := true } = { f n with published := true }) :
    (fs.mark i).setInode j f = (fs.setInode j f).mark i := by
  have hinodes : ((fs.inodes.modify i fun n => { n with published := true }).modify j f) =
      (fs.inodes.modify j f).modify i fun n => { n with published := true } := by
    refine List.ext_getElem? fun k => ?_
    simp only [List.getElem?_modify]
    cases fs.inodes[k]? with
    | none => rfl
    | some n =>
      simp only [Option.map_eq_map, Option.map_some]
      split_ifs <;> simp [hf]
  exact congrArg (fun inodes => { fs with inodes := inodes }) hinodes

theorem Fs.mark_dropLink (node : Option Node) :
    (fs.mark i).dropLink node = (fs.dropLink node).mark i := by
  rcases node with _ | ⟨j⟩ | _ | _
  · rfl
  · exact Fs.mark_setInode j (f := fun n => { n with nlink := n.nlink - 1 }) fun _ => rfl
  · rfl
  · rfl

theorem Fs.mark_create (hlt : i < fs.inodes.length) (d : Nat) (name : Bytes) :
    (fs.mark i).create d name = (fs.create d name).mark i := by
  have hlen : (fs.mark i).inodes.length = fs.inodes.length := Fs.length_mark
  have hinodes : (fs.mark i).inodes ++ [Fs.newInode] =
      (fs.inodes ++ [Fs.newInode]).modify i fun n => { n with published := true } := by
    refine List.ext_getElem? fun k => ?_
    rw [List.getElem?_modify]
    by_cases hk : k < fs.inodes.length
    · rw [List.getElem?_append_left (by rwa [hlen]), List.getElem?_append_left hk, Fs.inodes_mark]
      rfl
    · rw [List.getElem?_append_right (by rw [hlen]; exact Nat.not_lt.mp hk), hlen,
        List.getElem?_append_right (Nat.not_lt.mp hk)]
      have hne : i ≠ k := fun h => hk (h ▸ hlt)
      cases ([Fs.newInode])[k - fs.inodes.length]? <;> simp [hne]
  rw [Fs.create, hlen]
  exact congrArg (fun inodes => { fs.bindFile d name fs.inodes.length with inodes := inodes }) hinodes

@[simp] theorem Fs.slot_mark (d : Nat) (name : Bytes) : (fs.mark i).slot d name = fs.slot d name := by
  rw [Fs.slot, Fs.slot, Fs.lookup_mark]
  rcases fs.lookup d name with _ | ⟨j⟩ | _ | _
  · rfl
  · simp only [Fs.inodes_mark]
    cases fs.inodes[j]? with
    | none => rfl
    | some n =>
      simp only [Option.map_some]
      split <;> rfl
  · rfl
  · rfl

@[simp] theorem Fs.statOf_mark (node : Node) : (fs.mark i).statOf node = fs.statOf node := by
  cases node with
  | file j =>
    simp only [Fs.statOf, Fs.inodes_mark]
    cases fs.inodes[j]? with
    | none => rfl
    | some n =>
      simp only [Option.map_some]
      split <;> rfl
  | dir d => rfl
  | other => rfl

theorem Fs.mark_rename (d : Nat) (old new : Bytes) (j : Nat) :
    (fs.mark i).rename d old new j = (fs.rename d old new j).mark i := by
  have hinodes : (((fs.mark i).dropLink ((fs.mark i).lookup d new)).setInode j fun node =>
      { node with published := true }) =
      ((fs.dropLink (fs.lookup d new)).setInode j fun node => { node with published := true }).mark i := by
    rw [Fs.lookup_mark, Fs.mark_dropLink]
    exact Fs.mark_setInode j fun _ => rfl
  have hdata : (fs.mark i).inodes[j]?.map Inode.data = fs.inodes[j]?.map Inode.data := by
    rw [Fs.inodes_mark]
    cases fs.inodes[j]? with
    | none => rfl
    | some n =>
      simp only [Option.map_some]
      split <;> rfl
  have hsynced : (fs.mark i).inodes[j]?.map Inode.synced = fs.inodes[j]?.map Inode.synced := by
    rw [Fs.inodes_mark]
    cases fs.inodes[j]? with
    | none => rfl
    | some n =>
      simp only [Option.map_some]
      split <;> rfl
  rw [Fs.rename, hinodes, hdata, hsynced, Fs.slot_mark]
  rfl

/-- **No call sees the mark.** -/
theorem Fs.act_mark (hlt : i < fs.inodes.length) (op : FileOp) :
    (fs.mark i).act op = ((fs.act op).1, (fs.act op).2.mark i) := by
  cases op with
  | writeAt j offset data => exact congrArg (_, ·) (Fs.mark_setInode j fun _ => rfl)
  | chmodFile j mode => exact congrArg (_, ·) (Fs.mark_setInode j fun _ => rfl)
  | fsyncFile j => exact congrArg (_, ·) (Fs.mark_setInode j fun _ => rfl)
  | readAt node offset len =>
    cases node with
    | file j =>
      simp only [Fs.act, Fs.inodes_mark]
      cases fs.inodes[j]? with
      | none => rfl
      | some n =>
        simp only [Option.map_some]
        split <;> rfl
    | dir d => rfl
    | other => rfl
  | _ =>
    simp only [Fs.act, Fs.lookup_mark, Fs.resolve_mark, Fs.leaf_mark, Fs.walk_mark, Fs.origin_mark,
      Fs.statOf_mark, Fs.dirs_mark, Fs.length_mark, Fs.mark_create hlt, Fs.mark_rename,
      Fs.mark_dropLink]
    all_goals repeat' split
    all_goals first
      | rfl
      | exact if_pos ‹_›
      | exact if_neg ‹_›

theorem Fs.Step.mark {op : FileOp} {r : FileRes op} (h : Fs.Step faults fs op r fs')
    (hlt : i < fs.inodes.length) : Fs.Step faults (fs.mark i) op r (fs'.mark i) := by
  cases h with
  | acts =>
    have hstep : Fs.Step faults (fs.mark i) op _ _ := .acts (fs.mark i) op
    rwa [Fs.act_mark hlt] at hstep
  | lists hdir hperm => exact .lists hdir hperm
  | fails _ e hfaults => exact .fails _ _ e hfaults
  | readsLess hfaults hnode hne hpre =>
    rename_i j offset len n data
    have hnode' : (fs.mark i).inodes[j]? = some (if i = j then { n with published := true } else n) := by
      rw [Fs.inodes_mark, hnode]
      rfl
    refine .readsLess hfaults hnode' hne ?_
    split <;> exact hpre
  | writesLess hfaults hlt' =>
    rename_i j offset data k
    have hwrite : (fs.mark i).write j offset (data.take k) = (fs.write j offset (data.take k)).mark i :=
      Fs.mark_setInode j fun _ => rfl
    exact hwrite ▸ .writesLess hfaults hlt'

/-- Files are never given up altogether. -/
theorem Fs.Step.length_le {op : FileOp} {r : FileRes op} (h : Fs.Step faults fs op r fs') :
    fs.inodes.length ≤ fs'.inodes.length := by
  have hset : ∀ (fs : Fs) j f, fs.inodes.length ≤ (fs.setInode j f).inodes.length :=
    fun fs j f => (List.length_modify ..).ge
  have hcreate : ∀ d name, fs.inodes.length ≤ (fs.create d name).inodes.length := fun d name => by
    show _ ≤ (fs.inodes ++ [Fs.newInode]).length
    simp
  have hdrop : ∀ node, fs.inodes.length ≤ (fs.dropLink node).inodes.length := by
    rintro (_ | ⟨j⟩ | _ | _)
    · exact Nat.le_refl _
    · exact (List.length_modify ..).ge
    · exact Nat.le_refl _
    · exact Nat.le_refl _
  cases h with
  | acts =>
    cases op with
    | writeAt j offset data => exact hset fs j _
    | chmodFile j mode => exact hset fs j _
    | fsyncFile j => exact hset fs j _
    | renameAt d old new noReplace =>
      have hrename : ∀ j, fs.inodes.length ≤ (fs.rename d old new j).inodes.length := fun j =>
        (hdrop _).trans (hset (fs.dropLink (fs.lookup d new)) j _)
      simp only [Fs.act]
      (repeat' split) <;> first | exact Nat.le_refl _ | exact hrename _
    | _ =>
      simp only [Fs.act]
      (repeat' split) <;> first | exact Nat.le_refl _ | exact hcreate _ _ | exact hdrop _
  | writesLess => exact hset fs _ _
  | lists => exact Nat.le_refl _
  | fails => exact Nat.le_refl _
  | readsLess => exact Nat.le_refl _

end Mark

/-- The same of a world; what it remembers of the past is marked too. -/
def World.mark (i : Nat) (w : World) : World where
  fs := w.fs.mark i
  locks := w.locks.map fun l => { l with start := l.start.mark i }
  history := w.history.map fun s => { s with start := s.start.mark i, stop := s.stop.mark i }

section Runs

variable {faults : Bool} {i c : Nat} {w w' : World}

theorem World.mark_release (location : Location) :
    (w.mark i).release (Lock.isOf c location) = (w.release (Lock.isOf c location)).mark i := by
  simp only [World.release, World.mark, List.filter_map, List.map_append, List.map_map]
  rfl

theorem World.idle_mark (h : w.Idle c) : (w.mark i).Idle c := by
  rw [World.Idle, World.locksOf, World.mark, List.filter_map]
  exact congrArg (List.map _) h

theorem World.Step.mark {op : SysOp} {r : SysRes op} (h : World.Step faults c w op r w')
    (hlt : i < w.fs.inodes.length) : World.Step faults c (w.mark i) op r (w'.mark i) := by
  cases h with
  | file h => exact .file (h.mark hlt)
  | openLock => exact .openLock _ _
  | statLock _ hst => exact .statLock _ _ hst
  | chmodLock => exact .chmodLock _ _
  | flock hfree =>
    refine .flock fun l hl => ?_
    obtain ⟨l', hl', rfl⟩ := List.mem_map.mp hl
    exact hfree l' hl'
  | busy hl =>
    rename_i l
    have hl' : { l with start := l.start.mark i } ∈ (w.mark i).locks := List.mem_map.mpr ⟨l, hl, rfl⟩
    exact .busy (l := { l with start := l.start.mark i }) hl'
  | unlock =>
    rw [← World.mark_release]
    exact .unlock _ _
  | closeLock _ _ hr =>
    rw [← World.mark_release]
    exact .closeLock _ _ _ hr
  | openLockFails _ e hfaults => exact .openLockFails _ _ e hfaults
  | statLockFails _ e hfaults => exact .statLockFails _ _ e hfaults
  | chmodLockFails _ e hfaults => exact .chmodLockFails _ _ e hfaults
  | flockFails _ e hfaults => exact .flockFails _ _ e hfaults
  | unlockFails _ e hfaults => exact .unlockFails _ _ e hfaults

theorem World.Step.length_le {op : SysOp} {r : SysRes op} (h : World.Step faults c w op r w') :
    w.fs.inodes.length ≤ w'.fs.inodes.length := by
  cases h with
  | file h => exact h.length_le
  | _ => exact Nat.le_refl _

/-- **A run goes the same way** when a file is taken for a published one. -/
theorem Run.mark {α : Type} {p rest : SysM α} (h : Sem.Run (alone c) p w rest w')
    (hlt : i < w.fs.inodes.length) : Sem.Run (alone c) p (w.mark i) rest (w'.mark i) := by
  induction h with
  | refl p w => exact .refl _ _
  | env hrely _ ih =>
    obtain rfl := hrely
    exact ih hlt
  | call hstep _ ih => exact .call (hstep.mark hlt) (ih (hlt.trans_le hstep.length_le))

end Runs

/-! ## A save beside a new file -/

theorem Fs.entry_mark {i : Nat} {fs : Fs} (path : Bytes) : (fs.mark i).entry path = fs.entry path := by
  simp only [Fs.entry, Fs.resolve_mark, Fs.slot_mark]

/-- A path whose directories are there keeps naming the same entry. -/
theorem Fs.Evolves.leaf_eq {a b : Fs} (h : Fs.Evolves a b) {path name : Bytes} {d : Nat}
    (hleaf : a.leaf path = some (d, name)) : b.leaf path = some (d, name) := by
  rw [Fs.leaf] at hleaf ⊢
  split at hleaf
  · cases hleaf
  split_ifs at hleaf with hbad
  obtain ⟨e, hwalk, heq⟩ := Option.map_eq_some_iff.mp hleaf
  rw [if_neg hbad, Fs.origin, h.cwd_eq, ← Fs.origin, h.walk_eq hwalk, Option.map_some, heq]

section Written

variable {E : Nat → Bytes → Prop} {fs fs₁ : Fs} {d i : Nat} {name : Bytes} {n : Inode}

/-- A new file has one name, for no finished file was lost to it. -/
theorem Fs.Temp.sole (h : Fs.Temp E fs d name i n fs₁) (hfin : fs.Finished) : fs₁.Sole d name i n where
  bound := h.bound
  only e other hfile := by
    by_contra hne
    rw [h.lookup_ne e other hne] at hfile
    obtain ⟨m, hm, hpub⟩ := hfin e other i hfile
    have hm₁ := (h.quiet.inode_iff i m hpub).mpr hm
    rw [h.inode_eq, Option.some.injEq] at hm₁
    rw [← hm₁, h.unpublished] at hpub
    cases hpub
  inode_eq := h.inode_eq

/-- Once the new file counts as published, every file does. -/
theorem Fs.Temp.finished_mark (h : Fs.Temp E fs d name i n fs₁) (hfin : fs.Finished) :
    (fs₁.mark i).Finished := by
  intro e other j hfile
  rw [Fs.lookup_mark] at hfile
  rw [Fs.inodes_mark]
  by_cases hname : (e, other) = (d, name)
  · obtain ⟨rfl, rfl⟩ := Prod.mk.inj hname
    have hij : i = j := by
      rw [h.bound] at hfile
      cases hfile
      rfl
    rw [← hij, h.inode_eq]
    exact ⟨{ n with published := true }, by simp, rfl⟩
  · rw [h.lookup_ne e other hname] at hfile
    obtain ⟨m, hm, hpub⟩ := hfin e other j hfile
    rw [(h.quiet.inode_iff j m hpub).mpr hm, Option.map_some]
    refine ⟨_, rfl, ?_⟩
    split
    · rfl
    · exact hpub

end Written

section Beside

variable {Hash : Type} {so : Sodium Hash} {host : Host} {c : Nat} {w w' : World}
variable {d i : Nat} {name : Bytes} {n : Inode}

/-- What a save did to the vault while a file `i` was there that is not the store's. -/
structure SavedBeside (so : Sodium Hash) (env : SaveEnv) (vault : Vault Hash) (header : FileHeader)
    (i : Nat) (fs fs' : Fs) : Prop where
  evolves : Fs.Evolves (fs.mark i) (fs'.mark i)
  active : fs'.entry vault.path = fs.entry vault.path ∨
    ∃ new, SealsInto so env vault header new ∧ fs'.entry vault.path = .holds new

/-- **A save beside a file that was just written** does to the vault what it does without it. -/
theorem pvStoreSave_beside [DecidableEq Hash] (hinj : Function.Injective so.generichash)
    {env : SaveEnv} {vault : Vault Hash} {header : FileHeader} {retention : Nat}
    {rest : SysM (PvStatus × Vault Hash × FileHeader)} (hidle : w.Idle c)
    (hlt : i < w.fs.inodes.length) (hfin : (w.fs.mark i).Finished)
    (hrun : Sem.Run (alone c) (pvStoreSave so host env vault header retention) w rest w') :
    SavedBeside so env vault header i w.fs w'.fs := by
  have hmarked := Run.mark hrun hlt
  have hidle' := World.idle_mark (i := i) hidle
  have hsafe := pvStoreSave_crashSafe hinj hidle' hfin hmarked
  refine ⟨?_, ?_⟩
  · rcases pvStoreSave_steps hinj hidle' hfin hmarked with hsame | ⟨location, -, -, hsteps⟩
    · have heq : w'.fs.mark i = w.fs.mark i := hsame
      rw [heq]
      exact .refl _
    · exact hsteps.evolves
  · have hactive := hsafe.active
    simp only [World.mark, Fs.entry_mark] at hactive
    rcases hactive with hsame | ⟨new, hnew, hentry, -⟩
    · exact .inl hsame
    · exact .inr ⟨new, hnew, hentry⟩

/-- If the save was refused, the vault is the old one. -/
theorem pvStoreSave_refused_beside [DecidableEq Hash] (hinj : Function.Injective so.generichash)
    {env : SaveEnv} {vault : Vault Hash} {header : FileHeader} {retention : Nat}
    {r : PvStatus × Vault Hash × FileHeader} (hidle : w.Idle c)
    (hlt : i < w.fs.inodes.length) (hfin : (w.fs.mark i).Finished) (hdirty : vault.dirty = true)
    (hbad : ¬r.1.Committed)
    (hrun : Sem.Run (alone c) (pvStoreSave so host env vault header retention) w (.ret r) w') :
    w'.fs.entry vault.path = w.fs.entry vault.path := by
  by_cases hretention : retention = 0
  · rw [pvStoreSave, if_pos (.inr hretention)] at hrun
    rw [run_ret hrun]
  · have hlaw := pvStoreSave_law hinj host (World.idle_mark (i := i) hidle) hfin hdirty hretention
      (Run.mark hrun hlt)
    have hentry := (hlaw.refused hbad).1
    simpa only [World.mark, Fs.entry_mark] using hentry

end Beside

end PVault
