import PVault.Crypto
import PVault.FileLogic
import PVault.Names

/-!
# Locating and reading snapshots (`src/store.c`)

A path is resolved to a location, an open directory and a name in it; every later access
goes through the open directory, and `revalidateStoreLocation` checks that the path still
leads there. A snapshot is read by `readDiskFileAt`, which accepts a private regular file
of exactly the length its header announces.

`readDiskFileAt_spec` says what a successful read returns even while others rename files:
the content that the name showed when it was opened, provided that published files are
never written again.
-/

namespace PVault

open Binary Conc

/-- What the store gets from the system besides files: how often an interrupted call is
repeated before the caller stops watching, and the random suffix for the temporary of a
file at each attempt. -/
structure Host where
  patience : Nat
  suffix : Bytes → Nat → UInt32

/-- A host whose temporary names are all the same. -/
def plainHost : Host := ⟨1, fun _ _ => 0⟩

/-- A call, with `again` as its handler of interrupts. -/
def onInterrupt (op : FileOp) (again : FileM (FileRes op)) : FileM (FileRes op) := do
  match ← sys op with
  | .error .eintr => again
  | r => return r

/-- Repeat a call while it is interrupted. -/
def retry (op : FileOp) : Nat → FileM (FileRes op)
  | 0 => onInterrupt op .spin
  | patience + 1 => onInterrupt op (retry op patience)

/-- The loop of `read_all`: at least one byte a pass, so the length bounds the passes. -/
def readLoop (host : Host) (node : Node) : Nat → Nat → Nat → FileM (Except PvStatus Bytes)
  | 0, _, _ => return .ok []
  | passes + 1, offset, remaining =>
    if remaining = 0 then
      return .ok []
    else do
      match ← retry (.readAt node offset remaining) host.patience with
      | .error _ => return .error .errIo
      | .ok got =>
        if got = ([] : Bytes) then
          return .error .errIo
        else
          match ← readLoop host node passes (offset + got.length) (remaining - got.length) with
          | .error status => return .error status
          | .ok rest => return .ok (got ++ rest)

/-- `read_all`. -/
def readAll (host : Host) (node : Node) (offset len : Nat) : FileM (Except PvStatus Bytes) :=
  readLoop host node len offset len

/-! ## Locations -/

/-- The bytes after the last `/` of a path. -/
def baseName (path : Bytes) : Bytes := (path.reverse.takeWhile (· ≠ 0x2f)).reverse

/-- `split_parent_and_name`. -/
def splitParentAndName (path : Bytes) : Except PvStatus (Bytes × Bytes) :=
  if path = [] ∨ path.length ≥ pathMax then
    .error .errUsage
  else
    let base := baseName path
    let parentLen := path.length - base.length - 1
    let parent : Bytes :=
      if base.length = path.length then [0x2e]
      else if parentLen = 0 then [0x2f]
      else path.take parentLen
    if base = [] ∨ base = [0x2e] ∨ base = [0x2e, 0x2e] then .error .errUsage else .ok (parent, base)

/-- `pv_store_location`; the open directory stands for its device and inode number too. -/
structure Location where
  dir : Nat
  name : Bytes
  deriving DecidableEq, Repr

/-- Close a descriptor and return an error. -/
def closeAnd {α : Type} (status : PvStatus) : FileM (Except PvStatus α) := do
  let _ ← sys .close
  return .error status

/-- `open_private_parent`. -/
def openPrivateParent (path : Bytes) : FileM (Except PvStatus (Nat × Bytes)) :=
  match splitParentAndName path with
  | .error status => return .error status
  | .ok (parent, name) => do
    match ← sys (.openPath parent) with
    | .error _ => return .error .errIo
    | .ok d =>
      match ← sys (.statDir d) with
      | .ok st =>
        if st.own = true ∧ st.mode &&& 0o022 = 0 then return .ok (d, name) else closeAnd .errIo
      | .error _ => closeAnd .errIo

/-- `open_store_location`. -/
def openStoreLocation (path : Bytes) : FileM (Except PvStatus Location) := do
  match ← openPrivateParent path with
  | .error status => return .error status
  | .ok (d, name) =>
    match ← sys (.statDir d) with
    | .error _ => closeAnd .errIo
    | .ok _ => return .ok ⟨d, name⟩

/-- `close_store_location`. -/
def closeStoreLocation : FileM Unit := do
  let _ ← sys .close
  return ()

/-- `revalidate_store_location`. -/
def revalidateStoreLocation (path : Bytes) (held : Location) : FileM PvStatus := do
  match ← openStoreLocation path with
  | .error status => return status
  | .ok current =>
    closeStoreLocation
    return if current ≠ held then .errLocked else .ok

/-- `path_entry_exists_at`. -/
def pathEntryExistsAt (d : Nat) (name : Bytes) : FileM (Except PvStatus Bool) := do
  match ← sys (.statAt d name) with
  | .ok _ => return .ok true
  | .error .enoent => return .ok false
  | .error _ => return .error .errIo

/-! ## Snapshots on disk -/

/-- The private modes: `0400`, pinned, and `0600`. -/
def privateMode (mode : Nat) : Prop := mode = 0o400 ∨ mode = 0o600

instance (mode : Nat) : Decidable (privateMode mode) := inferInstanceAs (Decidable (_ ∨ _))

/-- `private_snapshot_stat_issue`: there is none. -/
def Stat.isPrivate (st : Stat) : Prop :=
  st.regular = true ∧ st.own = true ∧ st.nlink = 1 ∧ privateMode st.mode

instance (st : Stat) : Decidable st.isPrivate := inferInstanceAs (Decidable (_ ∧ _))

/-- `open_private_snapshot_at`. -/
def openPrivateSnapshotAt (d : Nat) (name : Bytes) : FileM (Except PvStatus (Node × Stat)) := do
  match ← sys (.openAt d name) with
  | .error _ => return .error .errIo
  | .ok node =>
    match ← sys (.stat node) with
    | .ok st =>
      if st.isPrivate then return .ok (node, st) else closeAnd .errIo
    | .error _ => closeAnd .errIo

/-- `pv_disk_file`. -/
structure DiskFile (Hash : Type) where
  headerBytes : Block pvFileHeaderLen
  header : FileHeader
  ciphertext : Bytes
  hash : Hash
  stat : Stat

/-- The bytes a snapshot on disk consists of. -/
def DiskFile.bytes {Hash : Type} (disk : DiskFile Hash) : Bytes :=
  disk.headerBytes.bytes ++ disk.ciphertext

/-- The part of `read_disk_file_at` after the file was opened. -/
def readOpenedFile {Hash : Type} (so : Sodium Hash) (host : Host) (node : Node) (st : Stat) :
    FileM (Except PvStatus (DiskFile Hash)) :=
  if st.size < pvFileHeaderLen then
    closeAnd .errFormat
  else do
    match ← readAll host node 0 pvFileHeaderLen with
    | .error status => closeAnd status
    | .ok headerData =>
      let headerBytes := Block.ofBytes pvFileHeaderLen headerData
      let header := (pvHeaderDecode headerBytes).2
      if (pvHeaderDecode headerBytes).1 ≠ .ok then
        closeAnd (pvHeaderDecode headerBytes).1
      else
        let len := header.bodyCiphertextLen.toNat
        if pvFileHeaderLen + len ≥ 2 ^ 63 ∨ st.size ≠ pvFileHeaderLen + len then
          closeAnd .errFormat
        else
          match ← sys (.malloc len) with
          | .error _ => closeAnd .errNomem
          | .ok _ =>
            match ← readAll host node pvFileHeaderLen len with
            | .error status => closeAnd status
            | .ok ciphertext =>
              match ← retry (.readAt node (pvFileHeaderLen + len) 1) host.patience with
              | .error _ => closeAnd .errFormat
              | .ok extra =>
                if extra ≠ ([] : Bytes) then
                  closeAnd .errFormat
                else
                  match ← sys .close with
                  | .error _ => return .error .errIo
                  | .ok _ =>
                    return .ok ⟨headerBytes, header, ciphertext,
                      so.generichash (headerBytes.bytes ++ ciphertext), st⟩

/-- `read_disk_file_at`. -/
def readDiskFileAt {Hash : Type} (so : Sodium Hash) (host : Host) (d : Nat) (name : Bytes) :
    FileM (Except PvStatus (DiskFile Hash)) := do
  match ← openPrivateSnapshotAt d name with
  | .error status => return .error status
  | .ok (node, st) => readOpenedFile so host node st

/-- `read_disk_file`. -/
def readDiskFile {Hash : Type} (so : Sodium Hash) (host : Host) (path : Bytes) :
    FileM (Except PvStatus (DiskFile Hash)) := do
  match ← openStoreLocation path with
  | .error status => return .error status
  | .ok location =>
    match ← readDiskFileAt so host location.dir location.name with
    | .error status =>
      closeStoreLocation
      return .error status
    | .ok disk =>
      let status ← revalidateStoreLocation path location
      closeStoreLocation
      if status ≠ .ok then return .error .errLocked else return .ok disk

/-- A call that is repeated is the same call. -/
theorem only_retry {P : FileOp → Prop} {op : FileOp} (hop : P op) (patience : Nat) :
    (retry op patience).Only P fun _ => True := by
  have hround : ∀ {again : FileM (FileRes op)}, again.Only P (fun _ => True) →
      (onInterrupt op again).Only P fun _ => True := by
    intro again hagain
    refine Prog.only_perform_bind hop fun r => ?_
    split
    · exact hagain
    · trivial
  induction patience with
  | zero => exact hround trivial
  | succ patience ih => exact hround ih

/-! ## Reading a file -/

section Reading

variable {faults : Bool} {R G : Fs → Fs → Prop} {fs : Fs}
variable {i d : Nat} {status : PvStatus} {st : Stat} {name path : Bytes}

/-- What a read of `len` bytes from `offset` on may have answered. -/
def ReadAnswer (faults : Bool) (data : Bytes) (offset len : Nat) : Except Errno Bytes → Prop
  | .error _ => faults = true
  | .ok got => got <+: slice data offset len ∧ (got = [] → slice data offset len = [])

/-- A read that is repeated while it is interrupted. -/
theorem retry_readAt_spec {offset len : Nat} {data : Bytes} (hG : ∀ fs, G fs fs)
    (htrans : ∀ a b c, R a b → R b c → R a c) (patience : Nat) :
    ∀ {fs : Fs}, Frozen R i data fs →
    (files faults R G).wp (retry (.readAt (.file i) offset len) patience)
      (fun r fs' => R fs fs' ∧ ReadAnswer faults data offset len r) fs := by
  -- One round, for either way to go on after an interrupt.
  have round : ∀ {fs : Fs} {again : FileM (FileRes (.readAt (.file i) offset len))},
      Frozen R i data fs →
      (∀ fs₁, R fs fs₁ → faults = true → (files faults R G).wp again
        (fun r fs' => R fs fs' ∧ ReadAnswer faults data offset len r) fs₁) →
      (files faults R G).wp (onInterrupt (.readAt (.file i) offset len) again)
        (fun r fs' => R fs fs' ∧ ReadAnswer faults data offset len r) fs := by
    intro fs again hfrozen hagain
    refine wp_readAt hG hfrozen (fun fs₁ e hrely hfaults => ?_)
      fun fs₁ got hrely hpre hnil => ⟨hrely, hpre, hnil⟩
    cases e with
    | eintr => exact hagain fs₁ hrely hfaults
    | _ => exact ⟨hrely, hfaults⟩
  induction patience with
  | zero => exact fun hfrozen => round hfrozen fun _ _ hfaults => hfaults
  | succ patience ih =>
    intro fs hfrozen
    refine round hfrozen fun fs₁ hrely _ => ?_
    refine Sem.wp_mono (ih (hfrozen.later htrans hrely)) fun r fs' h => ?_
    exact ⟨htrans _ _ _ hrely h.1, h.2⟩

/-- `read_all` returns the bytes asked for, or fails: without faults, only beyond the end
of the file. -/
theorem readLoop_spec (host : Host) {data : Bytes} (hG : ∀ fs, G fs fs) (hrefl : ∀ fs, R fs fs)
    (htrans : ∀ a b c, R a b → R b c → R a c) (passes : Nat) :
    ∀ {offset len : Nat} {fs : Fs}, len ≤ passes → Frozen R i data fs →
    (files faults R G).wp (readLoop host (.file i) passes offset len)
      (fun r fs' => R fs fs' ∧
        (∀ status, r = .error status →
          status = .errIo ∧ (faults = false → data.length < offset + len)) ∧
        ∀ out, r = .ok out → out = slice data offset len ∧ out.length = len) fs := by
  induction passes with
  | zero =>
    intro offset len fs hlen _
    obtain rfl : len = 0 := Nat.le_zero.mp hlen
    refine ⟨hrefl fs, fun status h => (by cases h), fun out h => ?_⟩
    cases h
    exact ⟨(slice_zero _ _).symm, rfl⟩
  | succ passes ih =>
    intro offset len fs hlen hfrozen
    rw [readLoop]
    split
    · next hzero =>
      subst hzero
      refine ⟨hrefl fs, fun status h => (by cases h), fun out h => ?_⟩
      cases h
      exact ⟨(slice_zero _ _).symm, rfl⟩
    · next hne =>
      refine Sem.wp_then (retry_readAt_spec hG htrans host.patience hfrozen) ?_
      rintro r fs₁ ⟨hrely, hanswer⟩
      cases r with
      | error e =>
        refine ⟨hrely, fun status h => ?_, fun out h => by cases h⟩
        cases h
        refine ⟨rfl, fun hfalse => ?_⟩
        rw [show faults = true from hanswer] at hfalse
        cases hfalse
      | ok got =>
        obtain ⟨hpre, hnil⟩ := hanswer
        dsimp only
        split
        · next hgot =>
          refine ⟨hrely, fun status h => ?_, fun out h => by cases h⟩
          cases h
          refine ⟨rfl, fun _ => ?_⟩
          have hslice := congrArg List.length (hnil hgot)
          simp only [slice, List.length_take, List.length_drop, List.length_nil] at hslice
          omega
        · next hgot =>
          -- The rest of the region is read by the next passes.
          have hpos : 0 < got.length := List.length_pos_of_ne_nil hgot
          have hle : got.length ≤ len := by
            refine Nat.le_trans hpre.length_le ?_
            rw [slice, List.length_take]
            exact Nat.min_le_left _ _
          have hgoteq : got = slice data offset got.length := by
            have htake := List.prefix_iff_eq_take.mp hpre
            rwa [slice, List.take_take, Nat.min_eq_left hle] at htake
          refine Sem.wp_then (ih (by omega) (hfrozen.later htrans hrely)) ?_
          rintro r fs₂ ⟨hrely₂, herr₂, hok₂⟩
          cases r with
          | error status =>
            refine ⟨htrans _ _ _ hrely hrely₂, fun status' h => ?_, fun out h => by cases h⟩
            cases h
            obtain ⟨hio, hshort⟩ := herr₂ status rfl
            exact ⟨hio, fun hfalse => by have := hshort hfalse; omega⟩
          | ok rest =>
            obtain ⟨hrest, hrestlen⟩ := hok₂ rest rfl
            refine ⟨htrans _ _ _ hrely hrely₂, fun status h => (by cases h), fun out h => ?_⟩
            cases h
            refine ⟨?_, by rw [List.length_append, hrestlen]; omega⟩
            calc got ++ rest
                = slice data offset got.length ++
                    slice data (offset + got.length) (len - got.length) := by rw [← hgoteq, hrest]
              _ = slice data offset len := by rw [slice_append_slice, Nat.add_sub_cancel' hle]

/-- Closing changes nothing. -/
theorem wp_close {α : Type} {Q : α → Fs → Prop} {k : FileRes .close → FileM α}
    (hG : ∀ fs, G fs fs)
    (h : ∀ fs₁ r, R fs fs₁ → (faults = false → r = .ok ()) → (files faults R G).wp (k r) Q fs₁) :
    (files faults R G).wp (sys .close >>= k) Q fs := by
  refine wp_query rfl hG (fun fs₁ e hrely he => h fs₁ _ hrely fun hfalse => ?_)
    fun fs₁ v hrely _ => h fs₁ _ hrely fun _ => rfl
  cases he hfalse

theorem closeAnd_spec {α : Type} (hG : ∀ fs, G fs fs) :
    (files faults R G).wp (closeAnd status : FileM (Except PvStatus α))
      (fun r fs' => R fs fs' ∧ r = .error status) fs :=
  wp_close hG fun _ _ hrely _ => ⟨hrely, rfl⟩

/-! ## Reading a snapshot -/

/-- The content is the snapshot `disk`. -/
structure DiskFile.Reads {Hash : Type} (so : Sodium Hash) (disk : DiskFile Hash) (data : Bytes) :
    Prop where
  bytes_eq : disk.bytes = data
  decode_eq : pvHeaderDecode disk.headerBytes = (.ok, disk.header)
  length_eq : disk.ciphertext.length = disk.header.bodyCiphertextLen.toNat
  hash_eq : disk.hash = so.generichash data

namespace DiskFile.Reads

variable {Hash : Type} {so : Sodium Hash} {disk : DiskFile Hash} {data : Bytes}

theorem data_length (h : disk.Reads so data) :
    data.length = pvFileHeaderLen + disk.header.bodyCiphertextLen.toNat := by
  rw [← h.bytes_eq, DiskFile.bytes, List.length_append, disk.headerBytes.length_eq, h.length_eq]

theorem headerBytes_eq (h : disk.Reads so data) :
    Block.ofBytes _ (slice data 0 pvFileHeaderLen) = disk.headerBytes := by
  have hslice : slice data 0 pvFileHeaderLen = disk.headerBytes.bytes := by
    have hfull := slice_full disk.headerBytes.bytes
    rw [disk.headerBytes.length_eq] at hfull
    rw [← h.bytes_eq, DiskFile.bytes,
      slice_append_left (by rw [disk.headerBytes.length_eq, Nat.zero_add]), hfull]
  rw [hslice, Block.ofBytes_bytes]

/-- The content says what the header is. -/
theorem header_eq {other : DiskFile Hash} (h : disk.Reads so data) (h' : other.Reads so data) :
    other.header = disk.header := by
  have hdecode := h'.decode_eq
  rw [← h'.headerBytes_eq, h.headerBytes_eq, h.decode_eq] at hdecode
  exact (Prod.mk.inj hdecode).2.symm

theorem header_v1 (h : disk.Reads so data) : disk.header.V1 := by
  rcases pvHeaderDecode_cases disk.headerBytes with ⟨hv, heq⟩ | ⟨-, hne, -⟩
  · rw [h.decode_eq] at heq
    rw [(Prod.mk.inj heq).2]
    exact hv
  · exact absurd (congrArg Prod.fst h.decode_eq) hne

/-- A snapshot has a body. -/
theorem ciphertext_ne (h : disk.Reads so data) : disk.ciphertext ≠ [] := by
  obtain ⟨k, -, -, hlen⟩ := h.header_v1.bodyLen_eq
  intro hnil
  have hzero := h.length_eq
  rw [hnil, hlen, List.length_nil] at hzero
  omega

/-- The length of a version 1 body keeps the whole file far below `INT64_MAX`. -/
theorem data_lt (h : disk.Reads so data) : data.length < 2 ^ 63 := by
  obtain ⟨k, -, hk, hlen⟩ := h.header_v1.bodyLen_eq
  have hheader : pvFileHeaderLen = 252 := rfl
  rw [h.data_length, hlen]
  omega

end DiskFile.Reads

/-- What reading a file with the given content may have answered. -/
def ReadResult {Hash : Type} (so : Sodium Hash) (faults : Bool) (data : Bytes) (st : Stat) :
    Except PvStatus (DiskFile Hash) → Prop
  | .error status => ¬status.Committed ∧
      (faults = false → ∀ disk : DiskFile Hash, ¬disk.Reads so data)
  | .ok disk => disk.Reads so data ∧ disk.stat = st

theorem closeAnd_readResult {Hash : Type} {so : Sodium Hash} {data : Bytes} {fs₀ : Fs}
    (hG : ∀ fs, G fs fs) (htrans : ∀ a b c, R a b → R b c → R a c) (hrely : R fs₀ fs)
    (hne : ¬status.Committed) (h : faults = false → ∀ disk : DiskFile Hash, ¬disk.Reads so data) :
    (files faults R G).wp (closeAnd status)
      (fun r fs' => R fs₀ fs' ∧ ReadResult so faults data st r) fs := by
  refine Sem.wp_mono (closeAnd_spec hG) ?_
  rintro r fs' ⟨hrely', rfl⟩
  exact ⟨htrans _ _ _ hrely hrely', hne, h⟩

/-- **A file is read as a snapshot** exactly when it is one, unless a call fails. -/
theorem readOpenedFile_spec {Hash : Type} (so : Sodium Hash) (host : Host) {data : Bytes}
    (hG : ∀ fs, G fs fs) (hrefl : ∀ fs, R fs fs) (htrans : ∀ a b c, R a b → R b c → R a c)
    (hsize : st.size = data.length) (hfrozen : Frozen R i data fs) :
    (files faults R G).wp (readOpenedFile so host (.file i) st)
      (fun r fs' => R fs fs' ∧ ReadResult so faults data st r) fs := by
  rw [readOpenedFile]
  split
  · next hshort =>
    refine closeAnd_readResult hG htrans (hrefl fs) (by decide) fun _ disk hdisk => ?_
    have := hdisk.data_length
    omega
  next hshort =>
  refine Sem.wp_then (readLoop_spec host hG hrefl htrans _ (Nat.le_refl _) hfrozen) ?_
  rintro r fs₁ ⟨hrely₁, herr, hok⟩
  cases r with
  | error status =>
    obtain ⟨rfl, hlen⟩ := herr status rfl
    refine closeAnd_readResult hG htrans hrely₁ (by decide) fun hfalse disk hdisk => ?_
    have := hlen hfalse
    have := hdisk.data_length
    omega
  | ok headerData =>
  obtain ⟨rfl, -⟩ := hok headerData rfl
  dsimp only
  split
  · next hdecode =>
    refine closeAnd_readResult hG htrans hrely₁ (not_or_intro hdecode (pvHeaderDecode_ne_durability _))
      fun _ disk hdisk => hdecode ?_
    rw [hdisk.headerBytes_eq, hdisk.decode_eq]
  next hdecode =>
  simp only [not_not] at hdecode
  split
  · next hlength =>
    refine closeAnd_readResult hG htrans hrely₁ (by decide) fun _ disk hdisk => ?_
    have hlen := hdisk.data_length
    have hlt := hdisk.data_lt
    rw [hdisk.headerBytes_eq, hdisk.decode_eq] at hlength
    dsimp only at hlength
    omega
  next hlength =>
  -- From here on the length of the file is the one the header announces.
  generalize hheader : (pvHeaderDecode (Block.ofBytes pvFileHeaderLen (slice data 0 pvFileHeaderLen))).2
    = header at hlength ⊢
  obtain ⟨-, hlength⟩ := not_or.mp hlength
  rw [not_not, hsize] at hlength
  refine wp_query rfl hG (fun fs₂ e hrely₂ he => ?_) fun fs₂ _ hrely₂ _ => ?_
  · refine closeAnd_readResult hG htrans (htrans _ _ _ hrely₁ hrely₂) (by decide) fun hfalse => ?_
    cases he hfalse
  have hfrozen₂ := hfrozen.later htrans (htrans _ _ _ hrely₁ hrely₂)
  refine Sem.wp_then (readLoop_spec host hG hrefl htrans _ (Nat.le_refl _) hfrozen₂) ?_
  rintro r fs₃ ⟨hrely₃, herr₃, hok₃⟩
  have hrely₃ := htrans _ _ _ (htrans _ _ _ hrely₁ hrely₂) hrely₃
  cases r with
  | error status =>
    obtain ⟨rfl, hlen⟩ := herr₃ status rfl
    refine closeAnd_readResult hG htrans hrely₃ (by decide) fun hfalse => ?_
    have := hlen hfalse
    omega
  | ok ciphertext =>
  obtain ⟨rfl, hctlen⟩ := hok₃ ciphertext rfl
  refine Sem.wp_then (retry_readAt_spec hG htrans host.patience (hfrozen.later htrans hrely₃)) ?_
  rintro r fs₄ ⟨hrely₄, hanswer⟩
  have hrely₄ := htrans _ _ _ hrely₃ hrely₄
  cases r with
  | error e =>
    refine closeAnd_readResult hG htrans hrely₄ (by decide) fun hfalse => ?_
    rw [show faults = true from hanswer] at hfalse
    cases hfalse
  | ok extra =>
  have hextra : extra = [] := by
    have hpre := hanswer.1.length_le
    rw [slice, ← hlength, List.drop_length] at hpre
    exact List.length_eq_zero_iff.mp (Nat.le_zero.mp hpre)
  subst hextra
  dsimp only
  rw [if_neg fun hne => hne rfl]
  refine wp_close hG fun fs₅ r hrely₅ hr => ?_
  have hrely₅ := htrans _ _ _ hrely₄ hrely₅
  cases r with
  | error e =>
    refine ⟨hrely₅, by decide, fun hfalse => ?_⟩
    cases hr hfalse
  | ok _ =>
    have hbytes : (Block.ofBytes pvFileHeaderLen (slice data 0 pvFileHeaderLen)).bytes =
        slice data 0 pvFileHeaderLen := Block.bytes_ofBytes (length_slice (by omega))
    have hjoin : slice data 0 pvFileHeaderLen ++
        slice data pvFileHeaderLen header.bodyCiphertextLen.toNat = data := by
      have hfull := slice_full data
      rw [hlength, ← slice_append_slice, Nat.zero_add] at hfull
      exact hfull
    refine ⟨hrely₅, ⟨?_, ?_, hctlen, ?_⟩, rfl⟩
    · rw [DiskFile.bytes]
      dsimp only
      rw [hbytes, hjoin]
    · exact Prod.ext hdecode hheader
    · dsimp only
      rw [hbytes, hjoin]

/-! ## Opening a snapshot -/

/-- The content of a file does not change any more. -/
def Settled (R : Fs → Fs → Prop) (i : Nat) (fs : Fs) : Prop :=
  ∀ fs', R fs fs' → fs'.inodes[i]?.map Inode.data = fs.inodes[i]?.map Inode.data

theorem settled_alone (i : Nat) (fs : Fs) : Settled Alone i fs := by
  intro fs' h
  rw [show fs' = fs from h]

theorem Settled.frozen {n : Inode} {fs' : Fs} (htrans : ∀ a b c, R a b → R b c → R a c)
    (h : Settled R i fs) (hrely : R fs fs') (hn : fs'.inodes[i]? = some n) :
    Frozen R i n.data fs' := by
  intro fs₂ hrely₂
  have h₁ := h fs' hrely
  have h₂ := h fs₂ (htrans _ _ _ hrely hrely₂)
  rw [hn] at h₁
  rw [← h₁] at h₂
  exact Option.map_eq_some_iff.mp h₂

/-- Nobody else acts. -/
def Still (R : Fs → Fs → Prop) (fs : Fs) : Prop := ∀ fs', R fs fs' → fs' = fs

/-- A private file: own, with one name, and of a private mode. -/
def Inode.isPrivate (n : Inode) : Prop := n.own = true ∧ n.nlink = 1 ∧ privateMode n.mode

theorem Inode.stat_isPrivate {n : Inode} : (n.stat i).isPrivate ↔ n.isPrivate := by
  simp [Stat.isPrivate, Inode.isPrivate, Inode.stat]

/-- A node that passes as a private snapshot is a regular file. -/
theorem Fs.statOf_isPrivate {node : Node} (h : fs.statOf node = .ok st) (hst : st.isPrivate) :
    ∃ i n, node = .file i ∧ fs.inodes[i]? = some n ∧ st = n.stat i ∧ n.isPrivate := by
  cases node with
  | file i =>
    rw [Fs.statOf] at h
    cases hn : fs.inodes[i]? with
    | none => rw [hn] at h; cases h
    | some n =>
      rw [hn] at h
      cases h
      exact ⟨i, n, rfl, hn, rfl, Inode.stat_isPrivate.mp hst⟩
  | dir d =>
    rw [Fs.statOf] at h
    cases hd : fs.dirs[d]? with
    | none => rw [hd] at h; cases h
    | some dir =>
      rw [hd] at h
      cases h
      cases hst.1
  | other =>
    cases h
    cases hst.1

/-- The name was opened at some moment, and found private at a later one. -/
def Opened (R : Fs → Fs → Prop) (d : Nat) (name : Bytes) (i : Nat) (st : Stat) (fs fs' : Fs) : Prop :=
  ∃ fs₁ fs₂ n, R fs fs₁ ∧ fs₁.lookup d name = some (.file i) ∧ R fs₁ fs₂ ∧ R fs₂ fs' ∧
    fs₂.inodes[i]? = some n ∧ n.isPrivate ∧ st = n.stat i

/-- What opening a snapshot may have answered. -/
def OpenResult (faults : Bool) (R : Fs → Fs → Prop) (d : Nat) (name : Bytes) (fs fs' : Fs) :
    Except PvStatus (Node × Stat) → Prop
  | .error status => status = .errIo ∧ (faults = false → Still R fs →
      ∀ i n, fs.lookup d name = some (.file i) → fs.inodes[i]? = some n → ¬n.isPrivate)
  | .ok (node, st) => ∃ i, node = .file i ∧ Opened R d name i st fs fs'

theorem openPrivateSnapshotAt_spec (hG : ∀ fs, G fs fs) (hrefl : ∀ fs, R fs fs)
    (htrans : ∀ a b c, R a b → R b c → R a c) :
    (files faults R G).wp (openPrivateSnapshotAt d name)
      (fun r fs' => R fs fs' ∧ OpenResult faults R d name fs fs' r) fs := by
  refine wp_query rfl hG (fun fs₁ e hrely he => ⟨hrely, rfl, ?_⟩) fun fs₁ node hrely hopen => ?_
  · intro hfalse hstill i n hlookup _
    have hact := he hfalse
    rw [hstill fs₁ hrely] at hact
    simp only [Fs.act, hlookup] at hact
    cases hact
  have hlookup : fs₁.lookup d name = some node := by
    simp only [Fs.act] at hopen
    split at hopen
    · cases hopen
    · next heq => cases hopen; exact heq
    · cases hopen
  -- The failing exits close the file first.
  have hclose : ∀ fs₂, R fs fs₂ → (faults = false → Still R fs →
      ∀ i n, fs.lookup d name = some (.file i) → fs.inodes[i]? = some n → ¬n.isPrivate) →
      (files faults R G).wp (closeAnd .errIo)
        (fun r fs' => R fs fs' ∧ OpenResult faults R d name fs fs' r) fs₂ := by
    intro fs₂ hrely₂ hwhy
    exact wp_close hG fun fs₃ r hrely₃ _ => ⟨htrans _ _ _ hrely₂ hrely₃, rfl, hwhy⟩
  refine wp_query rfl hG (fun fs₂ e hrely₂ he => ?_) fun fs₂ st hrely₂ hstat => ?_
  · refine hclose fs₂ (htrans _ _ _ hrely hrely₂) fun hfalse hstill i n hlook hn => ?_
    have hact := he hfalse
    rw [hstill fs₁ hrely, hlook] at hlookup
    cases hlookup
    rw [hstill fs₂ (htrans _ _ _ hrely hrely₂)] at hact
    simp only [Fs.act, Fs.statOf, hn] at hact
    cases hact
  · dsimp only
    split
    · next hpriv =>
      obtain ⟨i, n, rfl, hn, rfl, hn'⟩ := Fs.statOf_isPrivate hstat hpriv
      exact ⟨htrans _ _ _ hrely hrely₂, i, rfl, fs₁, fs₂, n, hrely, hlookup, hrely₂, hrefl fs₂, hn,
        hn', rfl⟩
    · next hpriv =>
      refine hclose fs₂ (htrans _ _ _ hrely hrely₂) fun hfalse hstill i n hlook hn hn' => hpriv ?_
      rw [hstill fs₁ hrely, hlook] at hlookup
      cases hlookup
      rw [hstill fs₂ (htrans _ _ _ hrely hrely₂)] at hstat
      simp only [Fs.act, Fs.statOf, hn] at hstat
      cases hstat
      exact Inode.stat_isPrivate.mpr hn'

/-- What `read_disk_file_at` may have answered: the content the name led to when it was
opened, or an error. -/
def DiskResult {Hash : Type} (so : Sodium Hash) (faults : Bool) (R : Fs → Fs → Prop) (d : Nat)
    (name : Bytes) (fs fs' : Fs) : Except PvStatus (DiskFile Hash) → Prop
  | .error status => ¬status.Committed ∧ (faults = false → Still R fs →
      ∀ i n (disk : DiskFile Hash), fs.lookup d name = some (.file i) → fs.inodes[i]? = some n →
        n.isPrivate → ¬disk.Reads so n.data)
  | .ok disk => ∃ fs₁ fs₂ i n, R fs fs₁ ∧ fs₁.lookup d name = some (.file i) ∧ R fs₁ fs₂ ∧
      R fs₂ fs' ∧ fs₂.inodes[i]? = some n ∧ n.isPrivate ∧ disk.Reads so n.data ∧
      disk.stat = n.stat i

/-- **Reading by name.** A successful read returns the content of the file that the name
led to, even while others rename, provided they do not write into it. -/
theorem readDiskFileAt_spec {Hash : Type} (so : Sodium Hash) (host : Host) (hG : ∀ fs, G fs fs)
    (hrefl : ∀ fs, R fs fs) (htrans : ∀ a b c, R a b → R b c → R a c)
    (hsettled : ∀ fs₁ i, R fs fs₁ → fs₁.lookup d name = some (.file i) → Settled R i fs₁) :
    (files faults R G).wp (readDiskFileAt so host d name)
      (fun r fs' => R fs fs' ∧ DiskResult so faults R d name fs fs' r) fs := by
  refine Sem.wp_then (openPrivateSnapshotAt_spec hG hrefl htrans) ?_
  rintro r fs' ⟨hrely, hresult⟩
  cases r with
  | error status =>
    obtain ⟨rfl, hwhy⟩ := hresult
    exact ⟨hrely, by decide, fun hfalse hstill i n _ hlook hn hpriv _ =>
      hwhy hfalse hstill i n hlook hn hpriv⟩
  | ok opened =>
    obtain ⟨node, st⟩ := opened
    obtain ⟨i, rfl, fs₁, fs₂, n, h₁, hlookup, h₂, h₃, hn, hpriv, rfl⟩ := hresult
    have hfrozen : Frozen R i n.data fs' :=
      ((hsettled fs₁ i h₁ hlookup).frozen htrans h₂ hn).later htrans h₃
    refine Sem.wp_mono (readOpenedFile_spec so host hG hrefl htrans rfl hfrozen) ?_
    rintro r fs₄ ⟨hrely₄, hread⟩
    refine ⟨htrans _ _ _ hrely hrely₄, ?_⟩
    cases r with
    | error status =>
      refine ⟨hread.1, fun hfalse hstill i' n' disk hlook hn' _ hdisk => ?_⟩
      rw [hstill fs₁ h₁, hlook] at hlookup
      cases hlookup
      rw [hstill fs₂ (htrans _ _ _ h₁ h₂), hn'] at hn
      cases hn
      exact hread.2 hfalse disk hdisk
    | ok disk =>
      exact ⟨fs₁, fs₂, i, n, h₁, hlookup, h₂, htrans _ _ _ h₃ hrely₄, hn, hpriv, hread.1, hread.2⟩

/-- The name shows the snapshot `disk`. -/
def Fs.Shows {Hash : Type} (so : Sodium Hash) (fs : Fs) (d : Nat) (name : Bytes)
    (disk : DiskFile Hash) : Prop :=
  ∃ i n, fs.lookup d name = some (.file i) ∧ fs.inodes[i]? = some n ∧ n.isPrivate ∧
    disk.Reads so n.data ∧ disk.stat = n.stat i

/-- Reading by name while nobody else acts. -/
theorem readDiskFileAt_alone {Hash : Type} (so : Sodium Hash) (host : Host) (hG : ∀ fs, G fs fs) :
    (files faults Alone G).wp (readDiskFileAt so host d name)
      (fun r fs' => fs' = fs ∧ (∀ disk, r = .ok disk → fs.Shows so d name disk) ∧
        ∀ status, r = .error status →
          ¬status.Committed ∧
            (faults = false → ∀ disk : DiskFile Hash, ¬fs.Shows so d name disk)) fs := by
  refine Sem.wp_mono (readDiskFileAt_spec so host hG alone_refl alone_trans
    fun fs₁ i _ _ => settled_alone i fs₁) ?_
  rintro r fs' ⟨hrely, hresult⟩
  refine ⟨hrely, ?_, ?_⟩
  · rintro disk rfl
    obtain ⟨fs₁, fs₂, i, n, h₁, hlook, h₂, h₃, hn, hpriv, hread, hstat⟩ := hresult
    rw [show fs₁ = fs from h₁] at hlook h₂
    rw [show fs₂ = fs from h₂] at hn
    exact ⟨i, n, hlook, hn, hpriv, hread, hstat⟩
  · rintro status rfl
    refine ⟨hresult.1, ?_⟩
    rintro hfalse disk ⟨i, n, hlook, hn, hpriv, hread, -⟩
    exact hresult.2 hfalse (fun fs₁ h => h) i n disk hlook hn hpriv hread

/-! ## Locations -/

/-- The directory a path leads to is acceptable as the place of a vault. -/
def Dir.isParent (dir : Dir) : Prop := dir.own = true ∧ dir.mode &&& 0o022 = 0

/-- The path leads to the location, in a directory acceptable for a vault. -/
def Fs.LeadsTo (fs : Fs) (path : Bytes) (location : Location) : Prop :=
  ∃ parent dir, splitParentAndName path = .ok (parent, location.name) ∧
    fs.resolve parent = some location.dir ∧ fs.dirs[location.dir]? = some dir ∧ dir.isParent

/-- Whatever the others do, the path leads to the location. -/
def LeadsAlways (R : Fs → Fs → Prop) (path : Bytes) (location : Location) (fs : Fs) : Prop :=
  ∀ fs', R fs fs' → fs'.LeadsTo path location

/-- What opening a location may have answered. -/
def LocationResult (faults : Bool) (R : Fs → Fs → Prop) (path : Bytes) (fs : Fs) :
    Except PvStatus Location → Prop
  | .error status => ¬status.Committed ∧
      (faults = false → ∀ location, ¬LeadsAlways R path location fs)
  | .ok location => ∃ parent fs₁, splitParentAndName path = .ok (parent, location.name) ∧
      R fs fs₁ ∧ fs₁.resolve parent = some location.dir ∧
      ∃ fs₂ dir, R fs fs₂ ∧ fs₂.dirs[location.dir]? = some dir ∧ dir.isParent

theorem splitParentAndName_error (h : splitParentAndName path = .error status) :
    ¬status.Committed := by
  simp only [splitParentAndName] at h
  split at h
  · cases h
    decide
  · split at h
    · cases h
      decide
    · cases h

theorem openPrivateParent_spec (hG : ∀ fs, G fs fs) (hrefl : ∀ fs, R fs fs)
    (htrans : ∀ a b c, R a b → R b c → R a c) :
    (files faults R G).wp (openPrivateParent path)
      (fun r fs' => R fs fs' ∧
        LocationResult faults R path fs (r.map fun p => ⟨p.1, p.2⟩)) fs := by
  rw [openPrivateParent]
  split
  · next status hsplit =>
    refine ⟨hrefl fs, splitParentAndName_error hsplit, fun _ location hleads => ?_⟩
    obtain ⟨parent, dir, hsplit', -⟩ := hleads fs (hrefl fs)
    rw [hsplit] at hsplit'
    cases hsplit'
  next parent name hsplit =>
  refine wp_query rfl hG (fun fs₁ e hrely he => ⟨hrely, by decide, ?_⟩) fun fs₁ d hrely hopen => ?_
  · intro hfalse location hleads
    obtain ⟨parent', dir, hsplit', hpath, -⟩ := hleads fs₁ hrely
    rw [hsplit] at hsplit'
    cases hsplit'
    have hact := he hfalse
    simp only [Fs.act, hpath] at hact
    cases hact
  have hpath : fs₁.resolve parent = some d := by
    simp only [Fs.act] at hopen
    split at hopen
    · next heq => cases hopen; exact heq
    · cases hopen
  -- The directory of the location is the one that was opened.
  have hdir : ∀ {location fs₂}, LeadsAlways R path location fs → R fs fs₂ →
      ∃ dir, fs₂.dirs[d]? = some dir ∧ dir.isParent := by
    intro location fs₂ hleads hrely₂
    obtain ⟨parent', -, hsplit', hpath', -⟩ := hleads fs₁ hrely
    obtain ⟨-, dir, -, -, hdir, hparent⟩ := hleads fs₂ hrely₂
    rw [hsplit] at hsplit'
    cases hsplit'
    rw [hpath] at hpath'
    cases hpath'
    exact ⟨dir, hdir, hparent⟩
  have hclose : ∀ fs₂, R fs fs₂ →
      (faults = false → ∀ location, ¬LeadsAlways R path location fs) →
      (files faults R G).wp (closeAnd .errIo)
        (fun r fs' => R fs fs' ∧
          LocationResult faults R path fs (r.map fun p : Nat × Bytes => ⟨p.1, p.2⟩)) fs₂ := by
    intro fs₂ hrely₂ hwhy
    exact wp_close hG fun fs₃ r hrely₃ _ => ⟨htrans _ _ _ hrely₂ hrely₃, by decide, hwhy⟩
  refine wp_query rfl hG (fun fs₂ e hrely₂ he => ?_) fun fs₂ st hrely₂ hstat => ?_
  · refine hclose fs₂ (htrans _ _ _ hrely hrely₂) fun hfalse location hleads => ?_
    obtain ⟨dir, hfound, -⟩ := hdir hleads (htrans _ _ _ hrely hrely₂)
    have hact := he hfalse
    simp only [Fs.act, hfound] at hact
    cases hact
  · dsimp only
    split
    · next hgood =>
      refine ⟨htrans _ _ _ hrely hrely₂, parent, fs₁, hsplit, hrely, hpath, fs₂, ?_⟩
      simp only [Fs.act] at hstat
      split at hstat
      · next dir hfound =>
        cases hstat
        exact ⟨dir, htrans _ _ _ hrely hrely₂, hfound, hgood⟩
      · cases hstat
    · next hbad =>
      refine hclose fs₂ (htrans _ _ _ hrely hrely₂) fun hfalse location hleads => ?_
      obtain ⟨dir, hfound, hparent⟩ := hdir hleads (htrans _ _ _ hrely hrely₂)
      simp only [Fs.act, hfound] at hstat
      cases hstat
      exact hbad hparent

theorem openStoreLocation_spec (hG : ∀ fs, G fs fs) (hrefl : ∀ fs, R fs fs)
    (htrans : ∀ a b c, R a b → R b c → R a c) :
    (files faults R G).wp (openStoreLocation path)
      (fun r fs' => R fs fs' ∧ LocationResult faults R path fs r) fs := by
  refine Sem.wp_then (openPrivateParent_spec hG hrefl htrans) ?_
  rintro r fs₁ ⟨hrely, hresult⟩
  cases r with
  | error status => exact ⟨hrely, hresult⟩
  | ok found =>
    obtain ⟨d, name⟩ := found
    refine wp_query rfl hG (fun fs₂ e hrely₂ he => ?_) fun fs₂ _ hrely₂ _ =>
      ⟨htrans _ _ _ hrely hrely₂, hresult⟩
    refine wp_close hG fun fs₃ r hrely₃ _ =>
      ⟨htrans _ _ _ (htrans _ _ _ hrely hrely₂) hrely₃, by decide, ?_⟩
    intro hfalse location hleads
    obtain ⟨parent', fs₄, hsplit', hrely₄, hpath', -⟩ := hresult
    obtain ⟨parent, -, hsplit, hpath, -⟩ := hleads fs₄ hrely₄
    obtain ⟨-, dir, -, -, hdir, -⟩ := hleads fs₂ (htrans _ _ _ hrely hrely₂)
    rw [hsplit] at hsplit'
    cases hsplit'
    rw [hpath] at hpath'
    cases hpath'
    have hact := he hfalse
    simp only [Fs.act] at hact
    rw [hdir] at hact
    cases hact

/-- While nobody else acts and no call fails, a location stays valid. -/
theorem revalidateStoreLocation_spec {held : Location} (hG : ∀ fs, G fs fs)
    (hrefl : ∀ fs, R fs fs) (htrans : ∀ a b c, R a b → R b c → R a c) :
    (files faults R G).wp (revalidateStoreLocation path held)
      (fun status fs' => R fs fs' ∧
        (faults = false → Still R fs → fs.LeadsTo path held → status = .ok)) fs := by
  refine Sem.wp_then (openStoreLocation_spec hG hrefl htrans) ?_
  rintro r fs₁ ⟨hrely, hresult⟩
  cases r with
  | error status =>
    exact ⟨hrely, fun hfalse hstill hleads =>
      absurd (fun fs' h => hstill fs' h ▸ hleads) (hresult.2 hfalse held)⟩
  | ok current =>
    refine wp_close hG fun fs₂ _ hrely₂ _ => ⟨htrans _ _ _ hrely hrely₂, ?_⟩
    rintro - hstill ⟨parent, dir, hsplit, hpath, -⟩
    obtain ⟨parent', fs₃, hsplit', hrely₃, hpath', -⟩ := hresult
    rw [hsplit] at hsplit'
    obtain ⟨rfl, hname⟩ := Prod.mk.inj (Except.ok.inj hsplit')
    rw [hstill fs₃ hrely₃, hpath] at hpath'
    refine if_neg fun hne => hne ?_
    cases current
    cases held
    exact Location.mk.injEq .. ▸ ⟨(Option.some.inj hpath').symm, hname.symm⟩

/-- Whether a name is taken; a name may pass for free only because a call failed. -/
theorem pathEntryExistsAt_spec (hG : ∀ fs, G fs fs) :
    (files faults Alone G).wp (pathEntryExistsAt d name)
      (fun r fs' => fs' = fs ∧ (∀ status, r = .error status → status = .errIo) ∧
        (faults = false → fs.lookup d name = none → r = .ok false) ∧
        (faults = false → ∀ i n, fs.lookup d name = some (.file i) → fs.inodes[i]? = some n →
          r = .ok true)) fs := by
  refine wp_query rfl hG (fun fs₁ e hrely he => ?_) fun fs₁ st hrely hstat => ?_
  · obtain rfl : fs₁ = fs := hrely
    have hfree : faults = false → ∀ i n, fs₁.lookup d name = some (.file i) →
        fs₁.inodes[i]? ≠ some n := by
      intro hfalse i n hlook hn
      have hact := he hfalse
      simp only [Fs.act, hlook, Fs.statOf, hn] at hact
      cases hact
    have hnone : faults = false → fs₁.lookup d name = none → e = .enoent := by
      intro hfalse hlook
      have hact := he hfalse
      simp only [Fs.act, hlook] at hact
      cases hact
      rfl
    cases e with
    | enoent =>
      exact ⟨rfl, fun _ h => (by cases h), fun _ _ => rfl,
        fun hfalse i n hlook hn => absurd hn (hfree hfalse i n hlook)⟩
    | _ =>
      refine ⟨rfl, fun status h => ?_, fun hfalse hlook => ?_,
        fun hfalse i n hlook hn => absurd hn (hfree hfalse i n hlook)⟩
      · cases h
        rfl
      · cases hnone hfalse hlook
  · obtain rfl : fs₁ = fs := hrely
    refine ⟨rfl, fun status h => (by cases h), fun _ hlook => ?_, fun _ _ _ _ _ => rfl⟩
    simp only [Fs.act, hlook] at hstat
    cases hstat

end Reading

end PVault
