import Mathlib.Data.List.AList
import PVault.Lib.Bytes
import PVault.Lib.Prog

/-!
# The file system the store works on

Directories, files and the calls `src/store.c` makes on them. A call either does what
it is documented to do (`Fs.act`), or it fails and changes nothing, or, for `read` and
`write`, it transfers fewer bytes than asked for (`Fs.Step`).

Two fields of an inode and the log of renames are bookkeeping that no call can see:
`synced` says that the whole content has reached the disk, `published` that the file
has been given its final name, and `log` records every rename.

The file offset of a descriptor is an argument of `readAt` and `writeAt`: every
descriptor of the store has one user, who reads or writes it from the start.
-/

namespace PVault

open Binary Conc

/-- The values of `errno` the store distinguishes. -/
inductive Errno : Type where
  | eexist
  | enoent
  | eintr
  | ewouldblock
  | other
  deriving DecidableEq, Repr

/-- What a name in a directory is bound to. -/
inductive Node : Type where
  | file (i : Nat)
  | dir (d : Nat)
  | other
  deriving DecidableEq, Repr

/-- A regular file. -/
structure Inode where
  /-- the content -/
  data : Bytes
  /-- `st_uid == geteuid()` -/
  own : Bool
  /-- `st_nlink` -/
  nlink : Nat
  /-- `st_mode & 07777` -/
  mode : Nat
  /-- the content was synced after it was last written -/
  synced : Bool
  /-- the file has been renamed to its final name -/
  published : Bool
  deriving DecidableEq, Repr

/-- A directory. -/
structure Dir where
  /-- `st_uid == geteuid()` -/
  own : Bool
  /-- `st_mode & 07777` -/
  mode : Nat
  /-- the names in it -/
  entries : AList fun _ : Bytes => Node

/-- What a name shows to a reader. -/
inductive Slot : Type where
  | absent
  | special
  | holds (data : Bytes)
  deriving DecidableEq, Repr

/-- A rename that happened: the temporary name it took a file from, the name it gave
the file, what that name showed before, and the file's content then. -/
structure Event where
  dir : Nat
  temporary : Bytes
  name : Bytes
  replaced : Slot
  data : Bytes
  synced : Bool
  deriving DecidableEq, Repr

/-- The node bound to a name. -/
def lookupIn (dirs : List Dir) (d : Nat) (name : Bytes) : Option Node :=
  dirs[d]?.bind fun dir => dir.entries.lookup name

/-- The file system. -/
structure Fs where
  /-- the directories -/
  dirs : List Dir
  /-- the regular files -/
  inodes : List Inode
  /-- the working directory; the root directory is number 0 -/
  cwd : Nat
  /-- the renames, most recent first -/
  log : List Event
  /-- no directory is an entry of itself -/
  nested : ∀ d name d', lookupIn dirs d name = some (.dir d') → d' ≠ d

namespace Fs

/-- The node bound to a name. -/
def lookup (fs : Fs) (d : Nat) (name : Bytes) : Option Node := lookupIn fs.dirs d name

/-- The components of a path. -/
def components (path : Bytes) : List Bytes :=
  (path.splitOn 0x2f).filter fun c => c ≠ [] ∧ c ≠ [0x2e]

/-- Walk down from a directory. -/
def walk (fs : Fs) (d : Nat) : List Bytes → Option Nat
  | [] => some d
  | c :: rest =>
    match fs.lookup d c with
    | some (.dir e) => fs.walk e rest
    | _ => none

/-- The directory a path starts from. -/
def origin (fs : Fs) (path : Bytes) : Nat := if path.head? = some 0x2f then 0 else fs.cwd

/-- The directory a path leads to. -/
def resolve (fs : Fs) (path : Bytes) : Option Nat := fs.walk (fs.origin path) (components path)

/-- The directory and the name a path ends in, if it names an entry at all. -/
def leaf (fs : Fs) (path : Bytes) : Option (Nat × Bytes) :=
  match (path.splitOn 0x2f).getLast? with
  | none => none
  | some name =>
    if path.length ≥ 4096 ∨ name = [] ∨ name = [0x2e] ∨ name = [0x2e, 0x2e] then none
    else (fs.walk (fs.origin path) (components path).dropLast).map (·, name)

/-- What a name shows to a reader. -/
def slot (fs : Fs) (d : Nat) (name : Bytes) : Slot :=
  match fs.lookup d name with
  | none => .absent
  | some (.file i) =>
    match fs.inodes[i]? with
    | some node => .holds node.data
    | none => .special
  | some _ => .special

/-! ## Updates -/

theorem lookupIn_modify {dirs : List Dir} {d d' : Nat} {name' : Bytes} {f : Dir → Dir} :
    lookupIn (dirs.modify d f) d' name' =
      dirs[d']?.bind fun dir => (if d = d' then f dir else dir).entries.lookup name' := by
  simp only [lookupIn, List.getElem?_modify]
  cases dirs[d']? <;> rfl

/-- A change of entries that adds no directory keeps directories out of themselves. -/
theorem nested_modify {dirs : List Dir} {d : Nat} {f : Dir → Dir}
    (h : ∀ d name d', lookupIn dirs d name = some (.dir d') → d' ≠ d)
    (hf : ∀ dir name d', (f dir).entries.lookup name = some (.dir d') →
      dir.entries.lookup name = some (.dir d')) :
    ∀ e name d', lookupIn (dirs.modify d f) e name = some (.dir d') → d' ≠ e := by
  intro e name d' hlookup
  refine h e name d' ?_
  rw [lookupIn_modify] at hlookup
  rw [lookupIn]
  cases hdir : dirs[e]? with
  | none => rw [hdir] at hlookup; exact hlookup
  | some dir =>
    rw [hdir] at hlookup
    simp only [Option.bind_some] at hlookup ⊢
    split at hlookup
    · exact hf dir name d' hlookup
    · exact hlookup

/-- Change the file with number `i`. -/
def setInode (fs : Fs) (i : Nat) (f : Inode → Inode) : Fs :=
  { fs with inodes := fs.inodes.modify i f }

/-- Bind a name to a file. -/
def bindFile (fs : Fs) (d : Nat) (name : Bytes) (i : Nat) : Fs :=
  { fs with
    dirs := fs.dirs.modify d fun dir => { dir with entries := dir.entries.insert name (.file i) }
    nested := by
      refine nested_modify fs.nested fun dir name' d' h => ?_
      by_cases hname : name' = name
      · subst hname
        rw [AList.lookup_insert] at h
        cases h
      · rwa [AList.lookup_insert_ne hname] at h }

/-- Remove a name. -/
def unbind (fs : Fs) (d : Nat) (name : Bytes) : Fs :=
  { fs with
    dirs := fs.dirs.modify d fun dir => { dir with entries := dir.entries.erase name }
    nested := by
      refine nested_modify fs.nested fun dir name' d' h => ?_
      by_cases hname : name' = name
      · subst hname
        rw [AList.lookup_erase] at h
        cases h
      · rwa [AList.lookup_erase_ne hname] at h }

/-- Change the access mode of a directory. -/
def chmodDir (fs : Fs) (d mode : Nat) : Fs :=
  { fs with
    dirs := fs.dirs.modify d fun dir => { dir with mode := mode }
    nested := nested_modify fs.nested fun _ _ _ h => h }

/-- A directory as `mkdir` makes it. -/
def newDir : Dir := { own := true, mode := 0o700, entries := ∅ }

/-- An empty root directory, as the working directory. -/
def bare : Fs where
  dirs := [newDir]
  inodes := []
  cwd := 0
  log := []
  nested := by
    intro d name d' h
    cases d with
    | zero => cases h
    | succ d => cases h

theorem lookupIn_append_newDir (dirs : List Dir) (d : Nat) (name : Bytes) :
    lookupIn (dirs ++ [newDir]) d name = lookupIn dirs d name := by
  rw [lookupIn, lookupIn]
  rcases Nat.lt_trichotomy d dirs.length with hlt | heq | hgt
  · rw [List.getElem?_append_left hlt]
  · subst heq
    rw [List.getElem?_append_right (Nat.le_refl _), List.getElem?_eq_none (Nat.le_refl _)]
    simp [newDir]
  · rw [List.getElem?_eq_none (by simpa using Nat.succ_le_of_lt hgt),
      List.getElem?_eq_none (Nat.le_of_lt hgt)]

/-- Make a directory inside the directory `d`. -/
def addDir (fs : Fs) (d : Nat) (name : Bytes) : Fs :=
  { fs with
    dirs := (fs.dirs.modify d fun dir =>
      { dir with entries := dir.entries.insert name (.dir fs.dirs.length) }) ++ [newDir]
    nested := by
      intro e name' d' h
      rw [lookupIn_append_newDir, lookupIn_modify] at h
      cases hdir : fs.dirs[e]? with
      | none => rw [hdir] at h; cases h
      | some dir =>
        rw [hdir] at h
        simp only [Option.bind_some] at h
        have hlt : e < fs.dirs.length := (List.getElem?_eq_some_iff.mp hdir).1
        have hold : dir.entries.lookup name' = some (.dir d') → d' ≠ e := fun hl =>
          fs.nested e name' d' (by rw [lookupIn, hdir]; exact hl)
        split at h
        · by_cases hname : name' = name
          · subst hname
            rw [AList.lookup_insert] at h
            cases h
            exact Nat.ne_of_gt hlt
          · rw [AList.lookup_insert_ne hname] at h
            exact hold h
        · exact hold h }

end Fs

/-! ## Calls -/

/-- What `fstat` and `fstatat` report about a file. -/
structure Stat where
  /-- the file itself: `st_dev` and `st_ino` -/
  node : Node
  /-- `S_ISREG(st_mode)` -/
  regular : Bool
  own : Bool
  nlink : Nat
  mode : Nat
  size : Nat
  deriving DecidableEq, Repr

/-- What `fstat` reports about the regular file number `i`. -/
def Inode.stat (n : Inode) (i : Nat) : Stat := ⟨.file i, true, n.own, n.nlink, n.mode, n.data.length⟩

/-- What `fstat` reports about a directory. -/
structure DirStat where
  own : Bool
  mode : Nat
  deriving DecidableEq, Repr

/-- The calls the store makes on the file system. -/
inductive FileOp : Type where
  /-- `open(path, O_DIRECTORY | O_NOFOLLOW)` -/
  | openPath (path : Bytes)
  /-- `lstat(path)`, of a directory -/
  | lstatPath (path : Bytes)
  /-- `mkdir(path, 0700)` -/
  | mkdirPath (path : Bytes)
  /-- `open(path, O_RDONLY | O_NOFOLLOW)` -/
  | openFile (path : Bytes)
  /-- `open(path, O_WRONLY | O_CREAT | O_EXCL | O_NOFOLLOW, 0600)` -/
  | createFile (path : Bytes)
  /-- `unlink(path)` -/
  | unlinkFile (path : Bytes)
  /-- `openat(d, name, O_DIRECTORY | O_NOFOLLOW)` -/
  | openDirAt (d : Nat) (name : Bytes)
  /-- `mkdirat(d, name, 0700)` -/
  | mkdirAt (d : Nat) (name : Bytes)
  /-- `fstat` of a directory -/
  | statDir (d : Nat)
  /-- `fchmod` of a directory -/
  | chmodDir (d mode : Nat)
  /-- `fsync` of a directory -/
  | fsyncDir (d : Nat)
  /-- `readdir` to the end; the order of the names is up to the system -/
  | listDir (d : Nat)
  /-- `openat(d, name, O_RDONLY | O_NOFOLLOW)` -/
  | openAt (d : Nat) (name : Bytes)
  /-- `openat(d, name, O_WRONLY | O_CREAT | O_EXCL, 0600)` -/
  | createAt (d : Nat) (name : Bytes)
  /-- `fstat` of an open file -/
  | stat (node : Node)
  /-- `fstatat(d, name, AT_SYMLINK_NOFOLLOW)` -/
  | statAt (d : Nat) (name : Bytes)
  /-- `read`, from the given offset -/
  | readAt (node : Node) (offset len : Nat)
  /-- `write`, from the given offset -/
  | writeAt (i offset : Nat) (data : Bytes)
  /-- `fchmod` of a file -/
  | chmodFile (i mode : Nat)
  /-- `fsync` of a file -/
  | fsyncFile (i : Nat)
  /-- `close` -/
  | close
  /-- `renameat2(d, old, d, new, no_replace ? RENAME_NOREPLACE : 0)` -/
  | renameAt (d : Nat) (old new : Bytes) (noReplace : Bool)
  /-- `unlinkat(d, name, 0)` -/
  | unlinkAt (d : Nat) (name : Bytes)
  /-- `malloc` -/
  | malloc (size : Nat)
  deriving DecidableEq, Repr

/-- What a call returns when it succeeds. -/
@[reducible] def FileOp.Val : FileOp → Type
  | .openPath _ | .openDirAt _ _ | .createAt _ _ | .createFile _ | .writeAt _ _ _ => Nat
  | .openAt _ _ | .openFile _ => Node
  | .statDir _ => DirStat
  | .stat _ | .statAt _ _ => Stat
  | .readAt _ _ _ => Bytes
  | .listDir _ => List Bytes
  | .lstatPath _ | .mkdirPath _ | .mkdirAt _ _ | .chmodDir _ _ | .fsyncDir _ | .chmodFile _ _
  | .fsyncFile _ | .close | .renameAt _ _ _ _ | .unlinkAt _ _ | .unlinkFile _ | .malloc _ => Unit

/-- The answer to a call. -/
abbrev FileRes (op : FileOp) : Type := Except Errno op.Val

/-- A program over the file system. -/
abbrev FileM : Type → Type := Prog FileRes

namespace Fs

/-- What `fstat` reports about a node. -/
def statOf (fs : Fs) (node : Node) : Except Errno Stat :=
  match node with
  | .file i =>
    match fs.inodes[i]? with
    | some n => .ok (n.stat i)
    | none => .error .other
  | .dir d =>
    match fs.dirs[d]? with
    | some dir => .ok ⟨node, false, dir.own, 2, dir.mode, 0⟩
    | none => .error .other
  | .other => .ok ⟨node, false, true, 1, 0o777, 0⟩

/-- A file as `openat` with `O_CREAT | O_EXCL` makes it. -/
def newInode : Inode :=
  { data := [], own := true, nlink := 1, mode := 0o600, synced := false, published := false }

/-- Make an empty file. -/
def create (fs : Fs) (d : Nat) (name : Bytes) : Fs :=
  { fs.bindFile d name fs.inodes.length with inodes := fs.inodes ++ [newInode] }

/-- Write into a file. -/
def write (fs : Fs) (i offset : Nat) (data : Bytes) : Fs :=
  fs.setInode i fun node =>
    { node with data := splice node.data offset data, synced := false }

/-- Take one name away from the file a node stands for. -/
def dropLink (fs : Fs) (node : Option Node) : Fs :=
  { fs with
    inodes :=
      match node with
      | some (.file i) => fs.inodes.modify i fun n => { n with nlink := n.nlink - 1 }
      | _ => fs.inodes }

/-- Give the file `i`, now called `old`, the name `new`. -/
def rename (fs : Fs) (d : Nat) (old new : Bytes) (i : Nat) : Fs :=
  { (((fs.dropLink (fs.lookup d new)).setInode i fun node => { node with published := true }).unbind
      d old).bindFile d new i with
    log :=
      { dir := d, temporary := old, name := new, replaced := fs.slot d new
        data := (fs.inodes[i]?.map Inode.data).getD []
        synced := (fs.inodes[i]?.map Inode.synced).getD false } :: fs.log }

/-- **What a call does** when it does not fail. -/
def act (fs : Fs) : (op : FileOp) → FileRes op × Fs
  | .openPath path =>
    match fs.resolve path with
    | some d => (.ok d, fs)
    | none => (.error .enoent, fs)
  | .lstatPath path => if fs.resolve path = none then (.error .enoent, fs) else (.ok (), fs)
  | .mkdirPath path =>
    match (components path).getLast? with
    | none => (.error .eexist, fs)
    | some name =>
      match fs.walk (fs.origin path) (components path).dropLast with
      | none => (.error .enoent, fs)
      | some d =>
        if fs.lookup d name = none ∧ d < fs.dirs.length then (.ok (), fs.addDir d name)
        else (.error .eexist, fs)
  | .openFile path =>
    match fs.leaf path with
    | none => (.error .enoent, fs)
    | some (d, name) =>
      match fs.lookup d name with
      | some .other => (.error .other, fs)
      | some node => (.ok node, fs)
      | none => (.error .enoent, fs)
  | .createFile path =>
    match fs.leaf path with
    | none => (.error .enoent, fs)
    | some (d, name) =>
      match fs.lookup d name with
      | some _ => (.error .eexist, fs)
      | none =>
        if d < fs.dirs.length then (.ok fs.inodes.length, fs.create d name) else (.error .other, fs)
  | .unlinkFile path =>
    match fs.leaf path with
    | none => (.error .enoent, fs)
    | some (d, name) =>
      match fs.lookup d name with
      | some (.dir _) => (.error .other, fs)
      | some node => (.ok (), (fs.dropLink (some node)).unbind d name)
      | none => (.error .enoent, fs)
  | .openDirAt d name =>
    match fs.lookup d name with
    | some (.dir e) => (.ok e, fs)
    | some _ => (.error .other, fs)
    | none => (.error .enoent, fs)
  | .mkdirAt d name =>
    match fs.lookup d name with
    | some _ => (.error .eexist, fs)
    | none => if d < fs.dirs.length then (.ok (), fs.addDir d name) else (.error .other, fs)
  | .statDir d =>
    match fs.dirs[d]? with
    | some dir => (.ok ⟨dir.own, dir.mode⟩, fs)
    | none => (.error .other, fs)
  | .chmodDir d mode => (.ok (), fs.chmodDir d mode)
  | .fsyncDir _ => (.ok (), fs)
  | .listDir d =>
    match fs.dirs[d]? with
    | some dir => (.ok dir.entries.keys, fs)
    | none => (.error .other, fs)
  | .openAt d name =>
    match fs.lookup d name with
    | some .other => (.error .other, fs)
    | some node => (.ok node, fs)
    | none => (.error .enoent, fs)
  | .createAt d name =>
    match fs.lookup d name with
    | some _ => (.error .eexist, fs)
    | none =>
      if d < fs.dirs.length then (.ok fs.inodes.length, fs.create d name) else (.error .other, fs)
  | .stat node => (fs.statOf node, fs)
  | .statAt d name =>
    match fs.lookup d name with
    | some node => (fs.statOf node, fs)
    | none => (.error .enoent, fs)
  | .readAt node offset len =>
    match node with
    | .file i =>
      match fs.inodes[i]? with
      | some n => (.ok (slice n.data offset len), fs)
      | none => (.error .other, fs)
    | _ => (.error .other, fs)
  | .writeAt i offset data => (.ok data.length, fs.write i offset data)
  | .chmodFile i mode => (.ok (), fs.setInode i fun node => { node with mode := mode })
  | .fsyncFile i => (.ok (), fs.setInode i fun node => { node with synced := true })
  | .close => (.ok (), fs)
  | .renameAt d old new noReplace =>
    match fs.lookup d old, fs.lookup d new with
    | some (.file i), none => (.ok (), fs.rename d old new i)
    | some (.file _), some (.dir _) => (.error (if noReplace then .eexist else .other), fs)
    | some (.file i), some _ =>
      if noReplace then (.error .eexist, fs) else (.ok (), fs.rename d old new i)
    | some _, _ => (.error .other, fs)
    | none, _ => (.error .enoent, fs)
  | .unlinkAt d name =>
    match fs.lookup d name with
    | some (.dir _) => (.error .other, fs)
    | some node => (.ok (), (fs.dropLink (some node)).unbind d name)
    | none => (.error .enoent, fs)
  | .malloc _ => (.ok (), fs)

/-- **A call and its answer.** Besides doing what it should, a call may fail without
effect, `read` and `write` may transfer less than asked for, and a directory may be
listed in any order. -/
inductive Step (faults : Bool) : Fs → (op : FileOp) → FileRes op → Fs → Prop
  | acts (fs : Fs) (op : FileOp) : Step faults fs op (fs.act op).1 (fs.act op).2
  | lists {fs : Fs} {d : Nat} {dir : Dir} {names : List Bytes} (hdir : fs.dirs[d]? = some dir)
      (hperm : names.Perm dir.entries.keys) : Step faults fs (.listDir d) (.ok names) fs
  | fails (fs : Fs) (op : FileOp) (e : Errno) (hfaults : faults = true) :
      Step faults fs op (.error e) fs
  | readsLess {fs : Fs} {i offset len : Nat} {n : Inode} {data : Bytes}
      (hfaults : faults = true) (hnode : fs.inodes[i]? = some n) (hne : data ≠ [])
      (hpre : data <+: slice n.data offset len) :
      Step faults fs (.readAt (.file i) offset len) (.ok data) fs
  | writesLess {fs : Fs} {i offset : Nat} {data : Bytes} {n : Nat} (hfaults : faults = true)
      (hlt : n < data.length) :
      Step faults fs (.writeAt i offset data) (.ok n) (fs.write i offset (data.take n))

end Fs

end PVault
