import PVault.Publish
import PVault.Recovery

/-!
# The recovery file (`src/recovery.c`)

A recovery key is handed out as a small private text file. `pv_recovery_write_file` makes it under
the path it is given, or removes it again; `pv_recovery_read_file` looks for the line that begins
with `PV1R` in a file of at most 1024 bytes.

* `scanLines_eq` — the scanner finds the first such line, from any position.
* `readRecoveryLoop_spec` — the reads put together are the file, whatever sizes they have.
* `pvRecoveryWriteFile_spec` — what is under the path after a success.
* `recovery_file_reads_back` — what is read, and that a written key comes back.
-/

namespace PVault

open Binary Conc

variable {content line : Bytes}

/-! ## Paths -/

/-- A text without the slashes at its end. -/
def dropSlashes (path : Bytes) : Bytes := (path.reverse.dropWhile (· = 0x2f)).reverse

/-- `dirname`. -/
def dirname (path : Bytes) : Bytes :=
  if path = [] then [0x2e]
  else if dropSlashes path = [] then [0x2f]
  else
    let parent := ((dropSlashes path).reverse.dropWhile (· ≠ 0x2f)).reverse
    if parent = [] then [0x2e]
    else if dropSlashes parent = [] then [0x2f]
    else dropSlashes parent

/-! ## Writing -/

/-- `fsync_parent_path`, once the directory is open. -/
def fsyncOpenParent (d : Nat) : FileM PvStatus := do
  match ← sys (.statDir d) with
  | .error _ => return .errIo
  | .ok st =>
    if st.own = true ∧ st.mode &&& 0o022 = 0 then
      match ← sys (.fsyncDir d) with
      | .ok _ => return .ok
      | .error _ => return .errIo
    else return .errIo

/-- `fsync_parent_path`. -/
def fsyncRecoveryParent (path : Bytes) : FileM PvStatus :=
  if path.length ≥ pathMax then return .errLimit
  else do
    match ← sys (.openPath (dirname path)) with
    | .error _ => return .errIo
    | .ok d =>
      let status ← fsyncOpenParent d
      closing status

/-- `PVault recovery key v1`, a newline and `Vault: `. -/
def recoveryHeading : Bytes :=
  [0x50, 0x56, 0x61, 0x75, 0x6c, 0x74, 0x20, 0x72, 0x65, 0x63, 0x6f, 0x76, 0x65, 0x72, 0x79, 0x20,
   0x6b, 0x65, 0x79, 0x20, 0x76, 0x31, 0x0a, 0x56, 0x61, 0x75, 0x6c, 0x74, 0x3a, 0x20]

/-- Two newlines, `Keep this file offline and separate from the vault.` and a newline. -/
def recoveryAdvice : Bytes :=
  [0x0a, 0x0a, 0x4b, 0x65, 0x65, 0x70, 0x20, 0x74, 0x68, 0x69, 0x73, 0x20, 0x66, 0x69, 0x6c, 0x65,
   0x20, 0x6f, 0x66, 0x66, 0x6c, 0x69, 0x6e, 0x65, 0x20, 0x61, 0x6e, 0x64, 0x20, 0x73, 0x65, 0x70,
   0x61, 0x72, 0x61, 0x74, 0x65, 0x20, 0x66, 0x72, 0x6f, 0x6d, 0x20, 0x74, 0x68, 0x65, 0x20, 0x76,
   0x61, 0x75, 0x6c, 0x74, 0x2e, 0x0a]

/-- What `pv_recovery_write_file` prints. -/
def recoveryContent (encoded : Bytes) (vaultId : Block pvVaultIdBytes) : Bytes :=
  recoveryHeading ++ pvHexEncode vaultId.bytes ++ [0x0a, 0x0a] ++ encoded ++ recoveryAdvice

/-- Sync a file, if nothing failed before. -/
def syncing (i : Nat) (status : PvStatus) : FileM PvStatus :=
  if status ≠ .ok then return status
  else do
    match ← sys (.fsyncFile i) with
    | .ok _ => return .ok
    | .error _ => return .errIo

/-- Write the open file, sync it, close it and sync its directory. -/
def fillRecoveryFile (host : Host) (path : Bytes) (i : Nat) (content : Bytes) : FileM PvStatus := do
  let status ← writeAll host i 0 content
  let status ← syncing i status
  let status ← closing status
  if status ≠ .ok then return status else fsyncRecoveryParent path

/-- `pv_recovery_write_file`; `allocated` says whether there is memory for the text. -/
def pvRecoveryWriteFile (host : Host) (allocated : Bool) (path encoded : Bytes)
    (vaultId : Block pvVaultIdBytes) : FileM PvStatus := do
  let status ← fsyncRecoveryParent path
  if status ≠ .ok then return status
  else if allocated = false then return .errSecureMemory
  else
    match ← sys (.createFile path) with
    | .error e => return if e = .eexist then .errExists else .errIo
    | .ok i =>
      if (recoveryContent encoded vaultId).length ≥ 512 then
        let _ ← sys .close
        let _ ← sys (.unlinkFile path)
        return .errLimit
      else
        let status ← fillRecoveryFile host path i (recoveryContent encoded vaultId)
        if status ≠ .ok then
          let _ ← sys (.unlinkFile path)
          let _ ← fsyncRecoveryParent path
          return status
        else return .ok

/-! ## Reading -/

/-- `PV_RECOVERY_FILE_MAX`. -/
abbrev pvRecoveryFileMax : Nat := 1024

/-- The loop that reads the file, and one byte more than it may have. A pass reads at least one
byte, so the size of the buffer bounds the passes. -/
def readRecoveryLoop (host : Host) (node : Node) : Nat → Bytes → FileM (Except PvStatus Bytes)
  | 0, content => return .ok content
  | passes + 1, content =>
    if content.length < pvRecoveryFileMax + 1 then do
      match ← retry (.readAt node content.length (pvRecoveryFileMax + 1 - content.length))
        host.patience with
      | .error _ => return .error .errIo
      | .ok got =>
        if got = ([] : Bytes) then return .ok content
        else readRecoveryLoop host node passes (content ++ got)
    else return .ok content

/-- The end of the line that begins at a position: the next newline or the end. -/
def lineEnd (content : Bytes) (position : Nat) : Nat :=
  position + ((content.drop position).takeWhile (· ≠ 0x0a)).length

/-- `line_len`: without a carriage return at the end. -/
def lineLen (content : Bytes) (lineStart finish : Nat) : Nat :=
  let lineLen := finish - lineStart
  if lineLen > 0 ∧ content[lineStart + lineLen - 1]? = some 0x0d then lineLen - 1 else lineLen

/-- Where the next line begins. -/
def nextLine (content : Bytes) (finish : Nat) : Nat :=
  if finish < content.length then finish + 1 else finish

theorem nextLine_lt {position : Nat} (h : position < content.length) :
    content.length - nextLine content (lineEnd content position) < content.length - position := by
  rw [nextLine, lineEnd]
  split_ifs <;> omega

/-- The loop of `pv_recovery_read_file` over the lines: the status and what `encoded` holds. -/
def scanLines (content : Bytes) (encodedLen position : Nat) : PvStatus × Bytes :=
  if position < content.length then
    let finish := lineEnd content position
    let len := lineLen content position finish
    if len ≥ 4 ∧ (slice content position 4).map toUpper = recoveryTag then
      if len ≥ encodedLen then (.errLimit, []) else (.ok, slice content position len)
    else scanLines content encodedLen (nextLine content finish)
  else (.errFormat, [])
termination_by content.length - position
decreasing_by exact nextLine_lt ‹_›

/-- The part of `pv_recovery_read_file` after the file was opened. -/
def readOpenedRecovery (host : Host) (node : Node) (encodedLen : Nat) :
    FileM (PvStatus × Bytes) := do
  match ← sys (.stat node) with
  | .error _ => return (.errIo, [])
  | .ok st =>
    if st.regular = true ∧ st.own = true ∧ st.nlink = 1 ∧ st.mode &&& 0o077 = 0 then
      match ← readRecoveryLoop host node (pvRecoveryFileMax + 1) [] with
      | .error status => return (status, [])
      | .ok content =>
        if content.length > pvRecoveryFileMax then return (.errLimit, [])
        else return scanLines content encodedLen 0
    else return (.errIo, [])

/-- `pv_recovery_read_file`: the status and what `encoded` holds. -/
def pvRecoveryReadFile (host : Host) (allocated : Bool) (path : Bytes) (encodedLen : Nat) :
    FileM (PvStatus × Bytes) :=
  if encodedLen = 0 then return (.errUsage, [])
  else if allocated = false then return (.errSecureMemory, [])
  else do
    match ← sys (.openFile path) with
    | .error _ => return (.errIo, [])
    | .ok node =>
      let out ← readOpenedRecovery host node encodedLen
      let status ← closing out.1
      return (status, out.2)

/-! ## The scanner -/

/-- A line without one carriage return at its end. -/
def dropCr (line : Bytes) : Bytes := if line.getLast? = some 0x0d then line.dropLast else line

/-- The line begins with `PV1R`, in letters of either case. -/
def Tagged (line : Bytes) : Prop := (line.take 4).map toUpper = recoveryTag

instance (line : Bytes) : Decidable (Tagged line) := inferInstanceAs (Decidable (_ = _))

/-- **What is read back**: the first line that begins with `PV1R`, if the buffer has room for it. -/
def readBackText (content : Bytes) (encodedLen : Nat) : PvStatus × Bytes :=
  match (content.splitOn 0x0a).find? fun line => Tagged line with
  | none => (.errFormat, [])
  | some line =>
    if (dropCr line).length < encodedLen then (.ok, dropCr line) else (.errLimit, [])

theorem find_tagged (h : Tagged line) (lines : List Bytes) :
    ((line :: lines).find? fun line => Tagged line) = some line := by
  rw [List.find?_cons, decide_eq_true h]

theorem find_untagged (h : ¬Tagged line) (lines : List Bytes) :
    ((line :: lines).find? fun line => Tagged line) = lines.find? fun line => Tagged line := by
  rw [List.find?_cons, decide_eq_false h]

theorem dropCr_isPrefix (line : Bytes) : dropCr line <+: line := by
  rw [dropCr]
  split_ifs
  · exact List.dropLast_prefix line
  · exact List.prefix_refl line

/-- The carriage return that is dropped is not one of the four letters. -/
theorem Tagged.length_dropCr (h : Tagged line) : 4 ≤ (dropCr line).length := by
  have hfour : 4 ≤ line.length := by
    have hcount := congrArg List.length h
    rw [List.length_map, List.length_take] at hcount
    have : recoveryTag.length = 4 := rfl
    omega
  rw [dropCr]
  split_ifs with hcr
  · rw [List.length_dropLast]
    by_contra hshort
    obtain ⟨text, rfl⟩ := List.getLast?_eq_some_iff.mp hcr
    rw [List.length_append, List.length_singleton] at hfour hshort
    have hlen : text.length = 3 := by omega
    have hlast := congrArg List.getLast? h
    rw [List.take_of_length_le (by rw [List.length_append, List.length_singleton]; omega),
      List.map_append, List.map_singleton, List.getLast?_concat] at hlast
    exact absurd hlast (by decide)
  · exact hfour

/-- `line_len` is the length of the line without its carriage return. -/
theorem lineLen_eq {position : Nat} (h : line <+: content.drop position) :
    lineLen content position (position + line.length) = (dropCr line).length := by
  have hlast : ∀ b, (line.length > 0 ∧ content[position + line.length - 1]? = some b) ↔
      line.getLast? = some b := by
    intro b
    rcases Nat.eq_zero_or_pos line.length with hzero | hpos
    · rw [List.length_eq_zero_iff.mp hzero]
      simp
    · have hget : content[position + line.length - 1]? = line.getLast? := by
        obtain ⟨tail, htail⟩ := h
        rw [List.getLast?_eq_getElem?, Nat.add_sub_assoc hpos, ← List.getElem?_drop, ← htail,
          List.getElem?_append_left (by omega)]
      rw [hget, and_iff_right hpos]
  rw [lineLen, Nat.add_sub_cancel_left, dropCr]
  simp only [hlast]
  split_ifs
  · rw [List.length_dropLast]
  · rfl

/-- **The scanner finds the first line that begins with `PV1R`**, from any position. -/
theorem scanLines_eq (content : Bytes) (encodedLen position : Nat) :
    scanLines content encodedLen position = readBackText (content.drop position) encodedLen := by
  induction hfuel : content.length - position using Nat.strong_induction_on generalizing position with
  | _ fuel ih =>
  rw [scanLines]
  by_cases hlt : position < content.length
  swap
  · rw [if_neg hlt, List.drop_eq_nil_of_le (not_lt.mp hlt)]
    rfl
  rw [if_pos hlt]
  dsimp only
  obtain ⟨line, hline, hlines⟩ := splitOn_cases 0x0a (content.drop position)
  have hpre : line <+: content.drop position := hline ▸ List.takeWhile_prefix _
  have hlen : lineLen content position (lineEnd content position) = (dropCr line).length := by
    rw [lineEnd, hline]
    exact lineLen_eq hpre
  have hfour : 4 ≤ (dropCr line).length → slice content position 4 = line.take 4 := by
    intro hfour
    obtain ⟨tail, htail⟩ := hpre
    rw [slice, ← htail,
      List.take_append_of_le_length (hfour.trans (dropCr_isPrefix line).length_le)]
  have htag : (lineLen content position (lineEnd content position) ≥ 4 ∧
      (slice content position 4).map toUpper = recoveryTag) ↔ Tagged line := by
    rw [hlen]
    refine ⟨fun h => ?_, fun h => ⟨h.length_dropCr, ?_⟩⟩
    · rw [Tagged, ← hfour h.1]
      exact h.2
    · rw [hfour h.length_dropCr]
      exact h
  have hslice : slice content position (dropCr line).length = dropCr line :=
    (List.prefix_iff_eq_take.mp ((dropCr_isPrefix line).trans hpre)).symm
  by_cases htagged : Tagged line
  · have hfirst : ((content.drop position).splitOn 0x0a).find? (fun line => Tagged line) =
        some line := by
      rcases hlines with ⟨-, hsplit⟩ | ⟨more, -, hsplit⟩ <;>
        rw [hsplit, find_tagged htagged]
    rw [if_pos (htag.mpr htagged), hlen, hslice, readBackText, hfirst]
    dsimp only
    split_ifs <;> first | rfl | omega
  · rw [if_neg (mt htag.mp htagged), ih _ (hfuel ▸ nextLine_lt hlt) _ rfl]
    rcases hlines with ⟨hlast, hsplit⟩ | ⟨more, hmore, hsplit⟩
    · have hend : content.drop (nextLine content (lineEnd content position)) = [] := by
        refine List.drop_eq_nil_of_le ?_
        have hall := congrArg List.length hlast
        rw [List.length_drop] at hall
        rw [lineEnd, hline, nextLine]
        split_ifs <;> omega
      rw [readBackText, readBackText, hsplit, hend, find_untagged htagged]
      rfl
    · have hnext : content.drop (nextLine content (lineEnd content position)) = more := by
        have hall := congrArg List.length hmore
        rw [List.length_drop, List.length_append, List.length_cons] at hall
        rw [lineEnd, hline, nextLine, if_pos (by omega), Nat.add_assoc, ← List.drop_drop, hmore,
          ← List.drop_drop, List.drop_left]
        rfl
      rw [readBackText, readBackText, hsplit, hnext, find_untagged htagged]

/-! ## Reads of any sizes -/

/-- Nobody else touches the file system and no call fails, but a read may return less than it was
asked for and, if `interrupts` says so, a signal may interrupt it. -/
def steady (interrupts : Bool) : Sem FileRes Fs where
  step fs op r fs' := Fs.Step true fs op r fs' ∧ ∀ e, r = .error e → (fs.act op).1 = .error e ∨
    interrupts = true ∧ e = .eintr ∧ ∃ node offset len, op = .readAt node offset len
  rely := Alone
  guar _ _ := True
  diverges := interrupts = true

section Steady

variable {interrupts : Bool} {fs : Fs} {α : Type} {Q : α → Fs → Prop}

/-- A call that only looks answers what it should. -/
theorem steady_query {op : FileOp} {k : FileRes op → FileM α} (hop : op.query = true)
    (h : (steady interrupts).wp (k (fs.act op).1) Q fs) :
    (steady interrupts).wp (sys op >>= k) Q fs := by
  rintro fs₁ hrely r fs₂ ⟨hstep, herr⟩
  obtain rfl : fs₁ = fs := hrely
  refine ⟨trivial, ?_⟩
  obtain ⟨rfl, rfl⟩ | ⟨-, ⟨e, rfl⟩, rfl⟩ := hstep.plain_cases (FileOp.plain_of_query hop)
  · rwa [Fs.act_query hop]
  · obtain hact | ⟨-, -, _, _, _, rfl⟩ := herr e rfl
    · rwa [hact] at h
    · cases hop

/-- A read returns a part of what it was asked for, and nothing only at the end. -/
theorem steady_readAt {i offset len : Nat} {n : Inode} (hn : fs.inodes[i]? = some n)
    (patience : Nat) :
    (steady interrupts).wp (retry (.readAt (.file i) offset len) patience)
      (fun r fs' => fs' = fs ∧ ∃ got, r = .ok got ∧ got <+: slice n.data offset len ∧
        (got = [] → slice n.data offset len = [])) fs := by
  -- one call, for either way to go on after an interrupt
  have round : ∀ {again : FileM (FileRes (.readAt (.file i) offset len))},
      (interrupts = true → (steady interrupts).wp again (fun r fs' => fs' = fs ∧
        ∃ got, r = .ok got ∧ got <+: slice n.data offset len ∧
          (got = [] → slice n.data offset len = [])) fs) →
      (steady interrupts).wp (onInterrupt (.readAt (.file i) offset len) again) (fun r fs' =>
        fs' = fs ∧ ∃ got, r = .ok got ∧ got <+: slice n.data offset len ∧
          (got = [] → slice n.data offset len = [])) fs := by
    rintro again hagain fs₁ hrely r fs₂ ⟨hstep, herr⟩
    obtain rfl : fs₁ = fs := hrely
    refine ⟨trivial, ?_⟩
    cases hstep with
    | acts =>
      simp only [Fs.act, hn]
      exact ⟨rfl, _, rfl, List.prefix_refl _, id⟩
    | fails _ e _ =>
      rcases herr e rfl with hact | ⟨hinterrupts, rfl, -⟩
      · simp only [Fs.act, hn] at hact
        cases hact
      · exact hagain hinterrupts
    | readsLess _ hnode hne hpre =>
      rw [hn] at hnode
      cases hnode
      exact ⟨rfl, _, rfl, hpre, fun hnil => absurd hnil hne⟩
  induction patience with
  | zero => exact round id
  | succ patience ih => exact round fun _ => ih

/-- **The reads put together are the file**, up to one byte more than it may have. -/
theorem readRecoveryLoop_spec (host : Host) {i : Nat} {n : Inode} (hn : fs.inodes[i]? = some n)
    (passes : Nat) : ∀ {content : Bytes}, content <+: n.data →
    pvRecoveryFileMax + 1 ≤ content.length + passes → content.length ≤ pvRecoveryFileMax + 1 →
    (steady interrupts).wp (readRecoveryLoop host (.file i) passes content)
      (fun r fs' => fs' = fs ∧ r = .ok (n.data.take (pvRecoveryFileMax + 1))) fs := by
  have hdone : ∀ {content : Bytes}, content <+: n.data →
      content.length = min (pvRecoveryFileMax + 1) n.data.length →
      content = n.data.take (pvRecoveryFileMax + 1) := by
    intro content hpre hlen
    rw [List.take_eq_take_min, ← hlen]
    exact List.prefix_iff_eq_take.mp hpre
  induction passes with
  | zero =>
    intro content hpre hpasses hle
    have := hpre.length_le
    exact ⟨rfl, congrArg Except.ok (hdone hpre (by omega))⟩
  | succ passes ih =>
    intro content hpre hpasses hle
    have hpre_le := hpre.length_le
    rw [readRecoveryLoop]
    split_ifs with hroom
    swap
    · exact ⟨rfl, congrArg Except.ok (hdone hpre (by omega))⟩
    refine Sem.wp_then (steady_readAt hn host.patience) ?_
    rintro r fs₁ ⟨rfl, got, rfl, hgot, hnil⟩
    dsimp only
    have hlen : got.length ≤ pvRecoveryFileMax + 1 - content.length :=
      hgot.length_le.trans (List.length_take_le ..)
    split_ifs with hempty
    · refine ⟨rfl, congrArg Except.ok (hdone hpre ?_)⟩
      have hslice := congrArg List.length (hnil hempty)
      rw [slice, List.length_take, List.length_drop, List.length_nil] at hslice
      omega
    · have hpos := List.length_pos_of_ne_nil hempty
      refine ih ?_ (by rw [List.length_append]; omega) (by rw [List.length_append]; omega)
      obtain ⟨tail, htail⟩ := hpre
      have hdrop : n.data.drop content.length = tail := by rw [← htail, List.drop_left]
      rw [slice, hdrop] at hgot
      rw [← htail]
      exact (List.prefix_append_right_inj content).mpr (hgot.trans (List.take_prefix ..))

end Steady

/-! ## What a path holds -/

/-- The path names a private file with this content. -/
def Fs.PathHolds (fs : Fs) (path data : Bytes) : Prop :=
  ∃ d name i n, fs.leaf path = some (d, name) ∧ fs.lookup d name = some (.file i) ∧
    fs.inodes[i]? = some n ∧ n.data = data ∧ n.own = true ∧ n.nlink = 1 ∧ n.mode &&& 0o077 = 0

section Read

variable {interrupts : Bool} {fs : Fs}

/-- **What is read**: the first line that begins with `PV1R`, whatever sizes the reads have. -/
theorem pvRecoveryReadFile_spec (host : Host) {path data : Bytes} (hholds : fs.PathHolds path data)
    (hsize : data.length ≤ pvRecoveryFileMax) {encodedLen : Nat} (hlen : 1 ≤ encodedLen) :
    (steady interrupts).wp (pvRecoveryReadFile host true path encodedLen)
      (fun r fs' => fs' = fs ∧ r = readBackText data encodedLen) fs := by
  obtain ⟨d, name, i, n, hleaf, hlook, hn, rfl, hown, hnlink, hmode⟩ := hholds
  have hopen : (fs.act (.openFile path)).1 = .ok (.file i) := by simp only [Fs.act, hleaf, hlook]
  have hstat : (fs.act (.stat (.file i))).1 = .ok (n.stat i) := by simp only [Fs.act, Fs.statOf, hn]
  rw [pvRecoveryReadFile, if_neg (by omega), if_neg (by decide)]
  refine steady_query rfl ?_
  rw [hopen]
  refine Sem.wp_then (P := fun out fs' => fs' = fs ∧ out = readBackText n.data encodedLen) ?_ ?_
  · refine steady_query rfl ?_
    rw [hstat]
    dsimp only
    rw [if_pos ⟨rfl, hown, hnlink, hmode⟩]
    refine Sem.wp_then (readRecoveryLoop_spec host hn _ List.nil_prefix (by simp) (by simp)) ?_
    rintro r fs₁ ⟨rfl, rfl⟩
    have hwhole : n.data.take (pvRecoveryFileMax + 1) = n.data :=
      List.take_of_length_le (hsize.trans (Nat.le_succ _))
    dsimp only
    rw [hwhole, if_neg (not_lt.mpr hsize)]
    exact ⟨rfl, scanLines_eq n.data encodedLen 0⟩
  · rintro out fs₁ ⟨rfl, rfl⟩
    refine Sem.wp_then (P := fun status fs' => fs' = fs₁ ∧ status = (readBackText n.data encodedLen).1)
      ?_ ?_
    · exact steady_query rfl ⟨rfl, rfl⟩
    · rintro status fs₂ ⟨rfl, rfl⟩
      exact ⟨rfl, rfl⟩

end Read

/-! ## What writing leaves -/

/-- The same directories mean the same names. -/
theorem Fs.Quiet.leaf_eq {E : Nat → Bytes → Prop} {a b : Fs} (h : Fs.Quiet E a b) (path : Bytes) :
    b.leaf path = a.leaf path := by
  have hwalk : ∀ d cs, b.walk d cs = a.walk d cs := fun d cs =>
    Option.ext fun e => ⟨h.symm.evolves.walk_eq, h.evolves.walk_eq⟩
  rw [Fs.leaf, Fs.leaf, Fs.origin, Fs.origin, h.cwd_eq]
  simp only [hwalk]

/-- A private file that was written and synced, but never renamed. -/
def writtenInode (content : Bytes) : Inode := ⟨content, true, 1, 0o600, true, false⟩

/-- The directory of the path can be synced. -/
def Fs.ParentOk (fs : Fs) (path : Bytes) : Prop :=
  path.length < pathMax ∧ ∃ d st, fs.resolve (dirname path) = some d ∧ fs.statDir d = some st ∧
    st.own = true ∧ st.mode &&& 0o022 = 0

theorem Fs.Quiet.parentOk {E : Nat → Bytes → Prop} {a b : Fs} (h : Fs.Quiet E a b) {path : Bytes}
    (hok : a.ParentOk path) : b.ParentOk path := by
  obtain ⟨hlen, d, st, hresolve, hstat, hprivate⟩ := hok
  exact ⟨hlen, d, st, h.evolves.resolve_eq hresolve, (h.statDir_eq d).trans hstat, hprivate⟩

/-- A file with this content can be made under the path. -/
def Fs.CanWrite (fs : Fs) (path content : Bytes) : Prop :=
  fs.ParentOk path ∧ content.length < 512 ∧
    ∃ d name, fs.leaf path = some (d, name) ∧ fs.lookup d name = none ∧ d < fs.dirs.length

/-- The path is free, and ends at this name. -/
def Fs.FreeLeaf (fs : Fs) (path : Bytes) (d : Nat) (name : Bytes) : Prop :=
  fs.leaf path = some (d, name) ∧ fs.lookup d name = none

/-- What `pv_recovery_write_file` may have done: all of it, or nothing that shows. `clean` says that
nothing stood in its way but, perhaps, the file system. -/
inductive RecoveryOutcome (sure : FileOp → Prop) (clean : Prop) (path content : Bytes)
    (fs₀ fs : Fs) : PvStatus → Prop
  | written {d i : Nat} {name : Bytes} (hleaf : fs₀.leaf path = some (d, name))
      (h : Fs.Temp (fs₀.FreeLeaf path) fs₀ d name i
        (writtenInode content) fs) : RecoveryOutcome sure clean path content fs₀ fs .ok
  | nothing {status : PvStatus} (h : Fs.Quiet (fs₀.FreeLeaf path) fs₀ fs)
      (hstatus : status ∈ [PvStatus.errIo, .errLimit, .errExists, .errSecureMemory])
      (hsame : sure (.unlinkFile path) → ∀ d name, fs.lookup d name = fs₀.lookup d name)
      (hwhy : clean → ¬fs₀.CanWrite path content) :
      RecoveryOutcome sure clean path content fs₀ fs status

section Write

variable {faults : Bool} {G : Fs → Fs → Prop} {sure : FileOp → Prop} {fs fs₀ : Fs}

/-- Syncing the directory of a path changes nothing. -/
theorem fsyncRecoveryParent_spec (path : Bytes) (hG : ∀ fs, G fs fs) :
    (files faults Alone G).wp (fsyncRecoveryParent path)
      (fun status fs' => fs' = fs ∧ (status = .ok ∨ status = .errIo ∨ status = .errLimit) ∧
        (faults = false → fs.ParentOk path → status = .ok)) fs := by
  rw [fsyncRecoveryParent]
  split_ifs with hlong
  · exact ⟨rfl, .inr (.inr rfl), fun _ hok => absurd hok.1 (not_lt.mpr hlong)⟩
  refine wp_query rfl hG (fun fs₁ e hrely he => ⟨hrely, .inr (.inl rfl), fun hfalse hok => ?_⟩)
    fun fs₁ d hrely hopen => ?_
  · obtain rfl : fs₁ = fs := hrely
    obtain ⟨-, d, st, hresolve, -⟩ := hok
    have hact := he hfalse
    simp only [Fs.act, hresolve] at hact
    cases hact
  obtain rfl : fs₁ = fs := hrely
  refine Sem.wp_then (P := fun status fs' => fs' = fs₁ ∧ (status = .ok ∨ status = .errIo) ∧
    (faults = false → fs₁.ParentOk path → status = .ok)) ?_ ?_
  · -- what the open directory reports
    have hstat : fs₁.ParentOk path → ∃ st, (fs₁.act (.statDir d)).1 = .ok st ∧ st.own = true ∧
        st.mode &&& 0o022 = 0 := by
      rintro ⟨-, d', st, hresolve, hst, hprivate⟩
      simp only [Fs.act, hresolve] at hopen
      cases hopen
      refine ⟨st, ?_, hprivate⟩
      rw [Fs.statDir, Option.map_eq_some_iff] at hst
      obtain ⟨dir, hdir, rfl⟩ := hst
      simp only [Fs.act, hdir]
    refine wp_query rfl hG (fun fs₂ e hrely he => ⟨hrely, .inr rfl, fun hfalse hok => ?_⟩)
      fun fs₂ st hrely hact => ?_
    · obtain rfl : fs₂ = fs₁ := hrely
      obtain ⟨st, hst, -⟩ := hstat hok
      have hact := he hfalse
      rw [hst] at hact
      cases hact
    obtain rfl : fs₂ = fs₁ := hrely
    dsimp only
    split_ifs with hprivate
    · refine wp_query rfl hG (fun fs₃ e hrely he => ⟨hrely, .inr rfl, fun hfalse _ => ?_⟩)
        fun fs₃ _ hrely _ => ⟨hrely, .inl rfl, fun _ _ => rfl⟩
      have hact := he hfalse
      cases hact
    · refine ⟨rfl, .inr rfl, fun _ hok => ?_⟩
      obtain ⟨st', hst', hprivate'⟩ := hstat hok
      rw [hact] at hst'
      cases hst'
      exact absurd hprivate' hprivate
  · rintro status fs₂ ⟨rfl, hstatus, hclean⟩
    refine Sem.wp_mono (closing_spec hG) ?_
    rintro status' fs₃ ⟨rfl, rfl | ⟨-, rfl, hfaults⟩⟩
    · exact ⟨rfl, hstatus.imp_right .inl, hclean⟩
    · exact ⟨rfl, .inr (.inl rfl), fun hfalse => absurd (hfalse.symm.trans hfaults) Bool.false_ne_true⟩

/-- A file that was filled without a failure has the whole content. -/
theorem fillRecoveryFile_spec {E : Nat → Bytes → Prop} (host : Host) (path content : Bytes)
    {d i : Nat} {name : Bytes} (hquiet : ∀ a b, Fs.Quiet E a b → G a b)
    (htemp : Fs.Temp E fs₀ d name i Fs.newInode fs) :
    (files faults Alone G).wp (fillRecoveryFile host path i content)
      (fun status fs' => ∃ n, Fs.Temp E fs₀ d name i n fs' ∧
        (status = .ok ∧ n = writtenInode content ∨ status = .errIo ∨ status = .errLimit) ∧
        (faults = false → fs₀.ParentOk path → status = .ok)) fs := by
  have hG : ∀ fs, G fs fs := fun fs => hquiet fs fs (Fs.Quiet.refl fs)
  have hfault : ∀ {p : Prop}, faults = true → faults = false → p := fun h h' => by
    rw [h] at h'
    cases h'
  refine Sem.wp_then (writeLoop_spec host hquiet _ (Nat.le_refl _) htemp rfl) ?_
  rintro status fs₁ ⟨n₁, htemp₁, href, hwritten⟩
  refine Sem.wp_then (P := fun status fs' => ∃ n, Fs.Temp E fs₀ d name i n fs' ∧
    (status = .ok ∧ n = writtenInode content ∨ status = .errIo ∧ faults = true)) ?_ ?_
  · rcases hwritten with ⟨rfl, hdata⟩ | ⟨rfl, hfaults⟩
    swap
    · exact ⟨n₁, htemp₁, .inr ⟨rfl, hfaults⟩⟩
    rw [syncing, if_neg fun hne => hne rfl]
    refine wp_plain rfl (fun fs₂ e hrely he => ?_) fun fs₂ _ hrely _ => ?_
    · obtain rfl : fs₂ = fs₁ := hrely
      refine ⟨hG fs₂, n₁, htemp₁, .inr ⟨rfl, ?_⟩⟩
      rcases Bool.eq_false_or_eq_true faults with h | h
      · exact h
      · cases he h
    · obtain rfl : fs₂ = fs₁ := hrely
      have htemp₂ := htemp₁.set (fun n => { n with synced := true }) htemp₁.unpublished
      refine ⟨hquiet _ _ (htemp₁.quiet.symm.trans htemp₂.quiet), _, htemp₂, .inl ⟨rfl, ?_⟩⟩
      rw [href, hdata]
      rfl
  · rintro status fs₂ ⟨n₂, htemp₂, hstatus⟩
    refine Sem.wp_then (closing_spec hG) ?_
    rintro status' fs₃ ⟨rfl, hclosed⟩
    have hdone : status' = .ok ∧ n₂ = writtenInode content ∨ status' = .errIo ∧ faults = true := by
      rcases hclosed with rfl | ⟨-, rfl, hfaults⟩
      · exact hstatus
      · exact .inr ⟨rfl, hfaults⟩
    rcases hdone with ⟨rfl, hn⟩ | ⟨rfl, hfaults⟩
    · refine Sem.wp_mono (fsyncRecoveryParent_spec path hG) ?_
      rintro status'' fs₄ ⟨rfl, hsynced, hclean⟩
      exact ⟨n₂, htemp₂, hsynced.imp_left fun h => ⟨h, hn⟩,
        fun hfalse hok => hclean hfalse (htemp₂.quiet.parentOk hok)⟩
    · exact ⟨n₂, htemp₂, .inr (.inl rfl), hfault hfaults⟩

/-- Giving the file up leaves no trace, if the name can be removed. -/
theorem unlinkFile_spec {path : Bytes} {d i : Nat} {name : Bytes} {n : Inode}
    (hquiet : ∀ a b, Fs.Quiet (fs₀.FreeLeaf path) a b → G a b)
    (hleaf : fs₀.leaf path = some (d, name))
    (htemp : Fs.Temp (fs₀.FreeLeaf path) fs₀ d name i n fs)
    {α : Type} {k : FileRes (.unlinkFile path) → FileM α} {Q : α → Fs → Prop}
    (hk : ∀ r fs', Fs.Quiet (fs₀.FreeLeaf path) fs₀ fs' →
      (sure (.unlinkFile path) → ∀ d name, fs'.lookup d name = fs₀.lookup d name) →
      (filesSure sure faults Alone G).wp (k r) Q fs') :
    (filesSure sure faults Alone G).wp (sys (.unlinkFile path) >>= k) Q fs := by
  have hact : fs.act (.unlinkFile path) =
      (.ok (), (fs.dropLink (some (.file i))).unbind d name) := by
    simp only [Fs.act, htemp.quiet.leaf_eq, hleaf, htemp.bound]
  obtain ⟨hq, hsame⟩ := htemp.unlinked ⟨hleaf, htemp.new⟩
  refine wp_plain_sure rfl (fun fs₁ e hrely he => ?_) fun fs₁ v hrely _ => ?_
  · obtain rfl : fs₁ = fs := hrely
    refine ⟨hquiet _ _ (Fs.Quiet.refl _), hk _ _ htemp.quiet fun hsure => ?_⟩
    have herr := he (.inr hsure)
    rw [hact] at herr
    cases herr
  · obtain rfl : fs₁ = fs := hrely
    rw [hact]
    exact ⟨hquiet _ _ hq, hk _ _ (htemp.quiet.trans hq) fun _ => hsame⟩

/-- **What writing leaves**: the whole file under the path, or nothing. -/
theorem pvRecoveryWriteFile_spec (host : Host) (allocated : Bool) (path encoded : Bytes)
    (vaultId : Block pvVaultIdBytes)
    (hquiet : ∀ a b, Fs.Quiet (fs.FreeLeaf path) a b → G a b) :
    (filesSure sure faults Alone G).wp (pvRecoveryWriteFile host allocated path encoded vaultId)
      (fun status fs' => RecoveryOutcome sure (faults = false ∧ allocated = true) path
        (recoveryContent encoded vaultId) fs fs' status) fs := by
  have hG : ∀ fs, G fs fs := fun fs => hquiet fs fs (Fs.Quiet.refl fs)
  rw [pvRecoveryWriteFile]
  refine Sem.wp_then (wp_sure (fsyncRecoveryParent_spec path hG)) ?_
  rintro status fs₁ ⟨rfl, hsynced, hclean⟩
  have hnothing : ∀ {status : PvStatus},
      status ∈ [PvStatus.errIo, .errLimit, .errExists, .errSecureMemory] →
      (faults = false → allocated = true →
        ¬fs₁.CanWrite path (recoveryContent encoded vaultId)) →
      RecoveryOutcome sure (faults = false ∧ allocated = true) path
        (recoveryContent encoded vaultId) fs₁ fs₁ status :=
    fun hstatus hwhy =>
      .nothing (Fs.Quiet.refl fs₁) hstatus (fun _ _ _ => rfl) fun h => hwhy h.1 h.2
  by_cases hstatus : status = .ok
  swap
  · rw [if_pos hstatus]
    refine hnothing ?_ fun hfalse _ hcan => hstatus (hclean hfalse hcan.1)
    rcases hsynced.resolve_left hstatus with rfl | rfl <;> decide
  rw [if_neg (not_not.mpr hstatus)]
  by_cases hmem : allocated = false
  · rw [if_pos hmem]
    exact hnothing (by decide) fun _ h => absurd (hmem.symm.trans h) Bool.false_ne_true
  rw [if_neg hmem]
  refine wp_plain_sure rfl (fun fs₂ e hrely he => ?_) fun fs₂ i hrely hact => ?_
  · obtain rfl : fs₂ = fs₁ := hrely
    refine ⟨hG fs₂, hnothing ?_ fun hfalse _ hcan => ?_⟩
    · split_ifs <;> decide
    · obtain ⟨-, -, d, name, hleaf, hnew, hlt⟩ := hcan
      have hact := he (.inl hfalse)
      simp only [Fs.act, hleaf, hnew, if_pos hlt] at hact
      cases hact
  obtain rfl : fs₂ = fs₁ := hrely
  -- the file is new
  rcases hleaf : fs₂.leaf path with _ | ⟨d, name⟩
  · simp only [Fs.act, hleaf] at hact
    cases hact
  have hcreate : fs₂.act (.createFile path) = fs₂.act (.createAt d name) := by
    simp only [Fs.act, hleaf]
  rw [hcreate] at hact ⊢
  obtain ⟨hnew, hlt, rfl, heq⟩ := Fs.act_createAt_ok hact
  have htemp := Fs.temp_create (E := fs₂.FreeLeaf path) ⟨hleaf, hnew⟩ hnew hlt
  rw [heq]
  refine ⟨hquiet _ _ htemp.quiet, ?_⟩
  dsimp only
  split_ifs with hlong
  · refine wp_plain_sure rfl (fun fs₃ e hrely _ => ⟨hG fs₃, ?_⟩) fun fs₃ _ hrely _ => ⟨hG fs₃, ?_⟩ <;>
    · obtain rfl : fs₃ = _ := hrely
      exact unlinkFile_spec hquiet hleaf htemp fun r fs' hq hsame =>
        .nothing hq (by decide) hsame fun _ hcan => absurd hcan.2.1 (not_lt.mpr hlong)
  refine Sem.wp_then (wp_sure (fillRecoveryFile_spec host path _ hquiet htemp)) ?_
  rintro status fs₃ ⟨n, htemp₃, hfilled, hclean'⟩
  split_ifs with hok
  · refine unlinkFile_spec hquiet hleaf htemp₃ fun r fs' hq hsame => ?_
    refine Sem.wp_then (wp_sure (fsyncRecoveryParent_spec path hG)) ?_
    rintro status' fs₄ ⟨rfl, -⟩
    refine .nothing hq ?_ hsame fun hboth hcan => hok (hclean' hboth.1 hcan.1)
    rcases hfilled.resolve_left fun h => hok h.1 with rfl | rfl <;> decide
  · rcases hfilled with ⟨-, rfl⟩ | rfl | rfl
    · exact .written hleaf htemp₃
    · exact absurd (fun h => by cases h) hok
    · exact absurd (fun h => by cases h) hok

end Write

/-! ## Reading back what was written -/

section RoundTrip

variable {env : RecoveryEnv} {vaultId : Block pvVaultIdBytes} {key : Block pvRecoveryKeyBytes}

/-- The text of a key. -/
def recoveryText (env : RecoveryEnv) (vaultId : Block pvVaultIdBytes)
    (key : Block pvRecoveryKeyBytes) : Bytes :=
  recoveryTag ++ [45] ++ groupLoop 0 (recoveryCharacters env vaultId key)

theorem recoveryText_unspaced {c : UInt8} (h : c ∈ recoveryText env vaultId key) :
    isSpace c = false := by
  rcases List.mem_append.mp h with h | h
  · have hall : ∀ c ∈ recoveryTag ++ [45], isSpace c = false := by decide +kernel
    exact hall c h
  · rcases mem_groupLoop h with rfl | h
    · decide
    · exact (recoveryCharacters_kept h).2.1

theorem length_recoveryText_le (env : RecoveryEnv) (vaultId : Block pvVaultIdBytes)
    (key : Block pvRecoveryKeyBytes) : (recoveryText env vaultId key).length ≤ 125 := by
  have hgroups := length_groupLoop_le 0 (recoveryCharacters env vaultId key)
  rw [length_recoveryCharacters] at hgroups
  have htag : recoveryTag.length = 4 := rfl
  rw [recoveryText, List.length_append, List.length_append, List.length_singleton]
  omega

theorem length_recoveryContent_lt (env : RecoveryEnv) (vaultId : Block pvVaultIdBytes)
    (key : Block pvRecoveryKeyBytes) :
    (recoveryContent (recoveryText env vaultId key) vaultId).length < 512 := by
  have htext := length_recoveryText_le env vaultId key
  have hhex : (pvHexEncode vaultId.bytes).length = 32 := by
    rw [length_pvHexEncode, vaultId.length_eq]
    rfl
  have hheading : recoveryHeading.length = 30 := rfl
  have hadvice : recoveryAdvice.length = 54 := rfl
  simp only [recoveryContent, List.length_append, hhex, hheading, hadvice, List.length_cons,
    List.length_nil]
  omega

/-- The file has the text on a line of its own, and no line before it begins with `PV1R`. -/
theorem readBack_recoveryContent {encodedLen : Nat}
    (hlen : (recoveryText env vaultId key).length < encodedLen) :
    readBackText (recoveryContent (recoveryText env vaultId key) vaultId) encodedLen =
      (.ok, recoveryText env vaultId key) := by
  have hunspaced : ∀ b : UInt8, isSpace b = true → b ∉ recoveryText env vaultId key := by
    intro b hb hmem
    rw [recoveryText_unspaced hmem] at hb
    cases hb
  have hhex : (0x0a : UInt8) ∉ recoveryHeading.drop 23 ++ pvHexEncode vaultId.bytes := by
    intro hmem
    rcases List.mem_append.mp hmem with h | h
    · exact absurd h (by decide)
    · exact absurd (le_of_mem_pvHexEncode h) (by decide)
  have hvault : ¬Tagged (recoveryHeading.drop 23 ++ pvHexEncode vaultId.bytes) := by
    rw [Tagged, List.take_append_of_le_length (by decide)]
    decide
  have hcontent : recoveryContent (recoveryText env vaultId key) vaultId =
      recoveryHeading.take 22 ++ 0x0a :: (recoveryHeading.drop 23 ++ pvHexEncode vaultId.bytes ++
        0x0a :: ([] ++ 0x0a :: (recoveryText env vaultId key ++ 0x0a :: recoveryAdvice.drop 1))) := by
    simp [recoveryContent, recoveryHeading, recoveryAdvice]
  have hfirst : ((recoveryContent (recoveryText env vaultId key) vaultId).splitOn 0x0a).find?
      (fun line => Tagged line) = some (recoveryText env vaultId key) := by
    rw [hcontent, List.splitOn_append_cons_self_of_not_mem (by decide),
      List.splitOn_append_cons_self_of_not_mem hhex,
      List.splitOn_append_cons_self_of_not_mem List.not_mem_nil,
      List.splitOn_append_cons_self_of_not_mem (hunspaced _ (by decide)),
      find_untagged (by decide), find_untagged hvault, find_untagged (by decide),
      find_tagged]
    rfl
  have hcr : dropCr (recoveryText env vaultId key) = recoveryText env vaultId key :=
    if_neg fun h => hunspaced _ (by decide) (List.mem_of_getLast? h)
  rw [readBackText, hfirst]
  dsimp only
  rw [hcr, if_pos hlen]

end RoundTrip

/-! ## Every run -/

section Runs

variable {fs : Fs}

/-- Reading returns, and every run of it returns the same. -/
theorem pvRecoveryReadFile_runs (host : Host) {path data : Bytes} (hholds : fs.PathHolds path data)
    (hsize : data.length ≤ pvRecoveryFileMax) {encodedLen : Nat} (hlen : 1 ≤ encodedLen) :
    (∀ interrupts out fs', Sem.Run (steady interrupts)
      (pvRecoveryReadFile host true path encodedLen) fs (.ret out) fs' →
      fs' = fs ∧ out = readBackText data encodedLen) ∧
    Sem.Run (steady false) (pvRecoveryReadFile host true path encodedLen) fs
      (.ret (readBackText data encodedLen)) fs := by
  refine ⟨fun interrupts out fs' hrun => ?_, ?_⟩
  · exact Sem.wp_run hrun alone_refl alone_trans (fun a w₁ w₂ h hrely => by
      obtain rfl : w₂ = w₁ := hrely
      exact h) (pvRecoveryReadFile_spec host hholds hsize hlen)
  · have htotal : ∀ (fs₁ : Fs) (op : FileOp), ∃ r fs₂, (steady false).step fs₁ op r fs₂ :=
      fun fs₁ op => ⟨_, _, Fs.Step.acts fs₁ op, fun e he => .inl he⟩
    obtain ⟨out, fs', hrun, rfl, rfl⟩ := Sem.exists_run alone_refl (show ¬false = true by decide)
      htotal (pvRecoveryReadFile_spec host hholds hsize hlen)
    exact hrun

/-- The path holds what was written. -/
theorem RecoveryOutcome.pathHolds {sure : FileOp → Prop} {clean : Prop} {path content : Bytes}
    {fs₁ : Fs} (h : RecoveryOutcome sure clean path content fs fs₁ .ok) : fs₁.PathHolds path content := by
  cases h with
  | written hleaf htemp =>
    exact ⟨_, _, _, _, (htemp.quiet.leaf_eq path).trans hleaf, htemp.bound, htemp.inode_eq, rfl, rfl,
      rfl, (by decide : 0o600 &&& 0o077 = 0)⟩
  | nothing _ hstatus => exact absurd hstatus (by decide)

/-- Writing succeeds where a file can be made. -/
theorem pvRecoveryWriteFile_succeeds (host : Host) {path encoded : Bytes}
    {vaultId : Block pvVaultIdBytes}
    (hcan : fs.CanWrite path (recoveryContent encoded vaultId)) :
    ∃ fs₁, Sem.Run (files false Alone fun _ _ => True)
      (pvRecoveryWriteFile host true path encoded vaultId) fs (.ret .ok) fs₁ := by
  obtain ⟨status, fs₁, hrun, hout⟩ := returns_files
    (wp_of_sure (pvRecoveryWriteFile_spec host true path encoded vaultId fun _ _ _ => trivial))
  cases hout with
  | written => exact ⟨fs₁, hrun⟩
  | nothing _ _ _ hwhy => exact absurd hcan (hwhy ⟨rfl, rfl⟩)

/-- **The recovery file reads back what was written**: a private file of at most 1024 bytes gives
the first line, less one carriage return at its end, whose first four bytes are `PV1R` in letters
of either case, if the buffer has room for it, and the proper error otherwise, whatever sizes the
reads have. So a key that was encoded and written comes back when the file is read and decoded. -/
theorem recovery_file_reads_back (host : Host) :
    (∀ (fs : Fs) (path data : Bytes) (encodedLen : Nat), fs.PathHolds path data →
      data.length ≤ pvRecoveryFileMax → 1 ≤ encodedLen →
      (∀ interrupts out fs', Sem.Run (steady interrupts)
        (pvRecoveryReadFile host true path encodedLen) fs (.ret out) fs' →
        fs' = fs ∧ out = readBackText data encodedLen) ∧
      Sem.Run (steady false) (pvRecoveryReadFile host true path encodedLen) fs
        (.ret (readBackText data encodedLen)) fs) ∧
    ∀ (env : RecoveryEnv) (vaultId : Block pvVaultIdBytes) (key : Block pvRecoveryKeyBytes)
      (encodedLen : Nat), env.Granted → 77 < encodedLen →
      ∃ text, pvRecoveryEncode env vaultId key encodedLen = (.ok, text) ∧
        (∀ fs path, fs.CanWrite path (recoveryContent text vaultId) →
          ∃ fs₁, Sem.Run (files false Alone fun _ _ => True)
            (pvRecoveryWriteFile host true path text vaultId) fs (.ret .ok) fs₁) ∧
        ∀ fs path fs₁, Sem.Run (files true Alone fun _ _ => True)
          (pvRecoveryWriteFile host true path text vaultId) fs (.ret .ok) fs₁ →
          ∀ readLen, text.length < readLen →
            (∀ interrupts out fs', Sem.Run (steady interrupts)
              (pvRecoveryReadFile host true path readLen) fs₁ (.ret out) fs' →
              out = (.ok, text) ∧ pvRecoveryDecode env out.2 vaultId = (.ok, key)) ∧
            Sem.Run (steady false) (pvRecoveryReadFile host true path readLen) fs₁
              (.ret (.ok, text)) fs₁ := by
  refine ⟨fun fs path data encodedLen hholds hsize hlen =>
    pvRecoveryReadFile_runs host hholds hsize hlen, fun env vaultId key encodedLen hgranted hroom =>
    ⟨recoveryText env vaultId key, pvRecoveryEncode_eq hgranted vaultId key hroom,
      fun fs path hcan => pvRecoveryWriteFile_succeeds host hcan,
      fun fs path fs₁ hwrite readLen hread => ?_⟩⟩
  have hspec : (files true Alone fun _ _ => True).wp
      (pvRecoveryWriteFile host true path (recoveryText env vaultId key) vaultId)
      (fun status fs' => RecoveryOutcome (fun _ => False) (true = false ∧ true = true) path
        (recoveryContent (recoveryText env vaultId key) vaultId) fs fs' status) fs :=
    wp_of_sure (pvRecoveryWriteFile_spec host true path _ vaultId fun _ _ _ => trivial)
  have hwritten : RecoveryOutcome (fun _ => False) (true = false ∧ true = true) path
      (recoveryContent (recoveryText env vaultId key) vaultId) fs fs₁ .ok :=
    Sem.wp_run hwrite alone_refl alone_trans (fun a w₁ w₂ h hrely => by
      obtain rfl : w₂ = w₁ := hrely
      exact h) hspec
  have hsize : (recoveryContent (recoveryText env vaultId key) vaultId).length ≤
      pvRecoveryFileMax := (length_recoveryContent_lt env vaultId key).le.trans (by decide)
  obtain ⟨hall, hsome⟩ := pvRecoveryReadFile_runs host hwritten.pathHolds hsize
    (Nat.succ_le_of_lt (Nat.zero_lt_of_lt hread))
  rw [readBack_recoveryContent hread] at hall hsome
  refine ⟨fun interrupts out fs' hrun => ?_, hsome⟩
  obtain ⟨-, rfl⟩ := hall interrupts out fs' hrun
  refine ⟨rfl, ?_⟩
  rw [recoveryText, List.append_assoc]
  exact pvRecoveryDecode_written hgranted vaultId key

end Runs

/-- A root directory with one file, `/r`, of three lines. -/
def threeLines : Fs :=
  (Fs.bare.create 0 [0x72]).setInode 0 fun n =>
    { n with data := [0x50, 0x56, 0x0a] ++ ([0x70, 0x76, 0x31, 0x72, 0x2d, 0x0d, 0x0a] ++ [0x0d]) }

theorem threeLines_holds : threeLines.PathHolds [0x2f, 0x72]
    [0x50, 0x56, 0x0a, 0x70, 0x76, 0x31, 0x72, 0x2d, 0x0d, 0x0a, 0x0d] :=
  ⟨0, [0x72], 0, _, rfl, rfl, rfl, rfl, rfl, rfl, by decide⟩

theorem bare_canWrite (h : content.length < 512) :
    Fs.bare.CanWrite [0x2f, 0x72] content :=
  ⟨⟨by decide, 0, ⟨true, 0o700⟩, rfl, rfl, rfl, by decide⟩, h, 0, [0x72], rfl, rfl, by decide⟩

/-- A buffer that is just long enough for the second line; and a key that is written and read. -/
theorem recovery_file_reads_back_lines :
    Sem.Run (steady false) (pvRecoveryReadFile plainHost true [0x2f, 0x72] 6) threeLines
      (.ret (.ok, [0x70, 0x76, 0x31, 0x72, 0x2d])) threeLines ∧
    ∃ text fs₁, pvRecoveryEncode zeroChecksumEnv (Block.zero _) (Block.zero _) 128 = (.ok, text) ∧
      Sem.Run (files false Alone fun _ _ => True)
        (pvRecoveryWriteFile plainHost true [0x2f, 0x72] text (Block.zero _)) Fs.bare
        (.ret .ok) fs₁ ∧
      Sem.Run (steady false) (pvRecoveryReadFile plainHost true [0x2f, 0x72] 128) fs₁
        (.ret (.ok, text)) fs₁ := by
  obtain ⟨hread, hwrite⟩ := recovery_file_reads_back plainHost
  refine ⟨(hread threeLines [0x2f, 0x72] _ 6 threeLines_holds (by decide) (by decide)).2, ?_⟩
  obtain ⟨text, htext, hsucceeds, hback⟩ :=
    hwrite zeroChecksumEnv (Block.zero _) (Block.zero _) 128 ⟨rfl, rfl, rfl⟩ (by decide)
  have heq : text = recoveryText zeroChecksumEnv (Block.zero _) (Block.zero _) :=
    (congrArg Prod.snd htext).symm.trans
      (congrArg Prod.snd (pvRecoveryEncode_eq ⟨rfl, rfl, rfl⟩ (Block.zero _) _ (by decide)))
  have hshort := length_recoveryText_le zeroChecksumEnv (Block.zero _) (Block.zero _)
  obtain ⟨fs₁, hrun⟩ := hsucceeds Fs.bare [0x2f, 0x72]
    (bare_canWrite (by rw [heq]; exact length_recoveryContent_lt ..))
  have hmay : Sem.Run (files true Alone fun _ _ => True)
      (pvRecoveryWriteFile plainHost true [0x2f, 0x72] text (Block.zero _)) Fs.bare
      (.ret .ok) fs₁ := hrun.sub (fun _ _ _ _ h => Fs.Step.mayFail h) fun _ _ h => h
  exact ⟨text, fs₁, htext, hrun, (hback Fs.bare _ fs₁ hmay 128 (by rw [heq]; omega)).2⟩

end PVault
