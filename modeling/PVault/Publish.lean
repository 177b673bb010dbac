import PVault.Change

/-!
# Publishing a file under its final name (`src/store.c`)

`write_atomic_at`, `copy_file_exclusive_at` and `write_snapshot_exclusive_at` share one
shape: fill a temporary file, sync it, close it, and rename it to its final name.
`publishAt` is that shape, and `publishAt_spec` its specification: all the work on the
temporary is quiet, so nobody can tell an unfinished publication from none.
-/

namespace PVault

open Binary Conc

/-! ## The programs -/

/-- The loop of `write_all`: at least one byte a pass, so the length bounds the passes. -/
def writeLoop (host : Host) (i : Nat) : Nat → Nat → Bytes → FileM PvStatus
  | 0, _, _ => return .ok
  | passes + 1, offset, data =>
    if data = [] then
      return .ok
    else do
      match ← retry (.writeAt i offset data) host.patience with
      | .error _ => return .errIo
      | .ok written =>
        if written = 0 then
          return .errIo
        else
          writeLoop host i passes (offset + written) (data.drop written)

/-- `write_all`. -/
def writeAll (host : Host) (i offset : Nat) (data : Bytes) : FileM PvStatus :=
  writeLoop host i data.length offset data

/-- Open a new temporary for `name`, giving up after some attempts. -/
def openTemporary (host : Host) (d : Nat) (name : Bytes) :
    Nat → FileM (Except PvStatus (UInt32 × Nat))
  | 0 => return .error .errIo
  | attempts + 1 =>
    let suffix := host.suffix name attempts
    if (temporaryName name suffix).length ≥ pathMax then
      return .error .errLimit
    else do
      match ← sys (.createAt d (temporaryName name suffix)) with
      | .ok i => return .ok (suffix, i)
      | .error .eexist => openTemporary host d name attempts
      | .error _ => return .error .errIo

/-- `fstat` the temporary and check that it is private. -/
def checkTemporary (i : Nat) : FileM PvStatus := do
  match ← sys (.stat (.file i)) with
  | .ok st => return if st.isPrivate then .ok else .errIo
  | .error _ => return .errIo

/-- Fill the temporary with `fill`, between two checks, and sync it. -/
def fillTemporary (i : Nat) (fill : Nat → FileM PvStatus) : FileM PvStatus := do
  let status ← checkTemporary i
  if status ≠ .ok then
    return status
  else
    let status ← fill i
    if status ≠ .ok then
      return status
    else
      let status ← checkTemporary i
      if status ≠ .ok then
        return status
      else
        match ← sys (.fsyncFile i) with
        | .ok _ => return .ok
        | .error _ => return .errIo

/-- Close a descriptor; a failure counts if nothing failed before. -/
def closing (status : PvStatus) : FileM PvStatus := do
  match ← sys .close with
  | .ok _ => return status
  | .error _ => return if status = .ok then .errIo else status

/-- Close the source file, if there is one. -/
def closingInput (input : Bool) (status : PvStatus) : FileM PvStatus :=
  if input then closing status else pure status

/-- Remove a temporary, whatever comes of it, and return the status. -/
def discard (d : Nat) (temporary : Bytes) (status : PvStatus) : FileM PvStatus := do
  let _ ← sys (.unlinkAt d temporary)
  return status

/-- What the three publishing functions share. `input` says whether a source file is open
besides; `unsynced` is the status when the file got its name but the directory could not
be synced. -/
def publishAt (host : Host) (d : Nat) (name : Bytes) (fill : Nat → FileM PvStatus)
    (input noReplace : Bool) (unsynced : PvStatus) : FileM PvStatus := do
  match ← openTemporary host d name 32 with
  | .error status => closingInput input status
  | .ok (suffix, i) =>
    let status ← fillTemporary i fill
    let status ← closingInput input status
    let status ← closing status
    if status ≠ .ok then
      discard d (temporaryName name suffix) status
    else
      match ← sys (.renameAt d (temporaryName name suffix) name noReplace) with
      | .error e =>
        discard d (temporaryName name suffix)
          (if noReplace = true ∧ e = .eexist then .errExists else .errIo)
      | .ok _ =>
        match ← sys (.fsyncDir d) with
        | .ok _ => return .ok
        | .error _ => return unsynced

/-- Write a header and a ciphertext into a temporary. -/
def fillSnapshot (host : Host) (header : Block pvFileHeaderLen) (ciphertext : Bytes) (i : Nat) :
    FileM PvStatus := do
  let status ← writeAll host i 0 header.bytes
  if status ≠ .ok then return status else writeAll host i pvFileHeaderLen ciphertext

/-- `write_atomic_at`. -/
def writeAtomicAt (host : Host) (location : Location) (header : Block pvFileHeaderLen)
    (ciphertext : Bytes) (noReplace : Bool) : FileM PvStatus :=
  if ciphertext = [] then
    return .errUsage
  else
    publishAt host location.dir location.name (fillSnapshot host header ciphertext) false noReplace
      .errDurability

/-- The same, and give the temporary its final mode. -/
def fillSnapshotMode (host : Host) (header : Block pvFileHeaderLen) (ciphertext : Bytes)
    (finalMode i : Nat) : FileM PvStatus := do
  let status ← fillSnapshot host header ciphertext i
  if status ≠ .ok then
    return status
  else
    match ← sys (.chmodFile i finalMode) with
    | .ok _ => return .ok
    | .error _ => return .errIo

/-- `write_snapshot_exclusive_at`. -/
def writeSnapshotExclusiveAt (host : Host) (d : Nat) (name : Bytes)
    (header : Block pvFileHeaderLen) (ciphertext : Bytes) (finalMode : Nat) : FileM PvStatus :=
  if ciphertext = [] ∨ ¬privateMode finalMode then
    return .errUsage
  else
    publishAt host d name (fillSnapshotMode host header ciphertext finalMode) false true
      .errDurability

/-- The loop of `copy_file_exclusive_at`, 64 KiB a pass; the length of the file bounds the
passes. -/
def copyLoop (host : Host) (input : Node) (output : Nat) : Nat → Nat → FileM PvStatus
  | 0, _ => .spin
  | passes + 1, offset => do
    match ← retry (.readAt input offset 65536) host.patience with
    | .error _ => return .errIo
    | .ok got =>
      if got = ([] : Bytes) then
        return .ok
      else
        let status ← writeAll host output offset got
        if status ≠ .ok then return status else copyLoop host input output passes (offset + got.length)

/-- `copy_file_exclusive_at`. -/
def copyFileExclusiveAt (host : Host) (sourceDir : Nat) (sourceName : Bytes) (destDir : Nat)
    (destName : Bytes) : FileM PvStatus := do
  match ← openPrivateSnapshotAt sourceDir sourceName with
  | .error status => return status
  | .ok (input, st) =>
    publishAt host destDir destName (fun output => copyLoop host input output (st.size + 1) 0) true
      true .errIo

/-! ## Filling a temporary -/

/-- A temporary for the file `i` is being worked on, and nothing else has happened since
`fs₀`. -/
structure Fs.Temp (E : Nat → Bytes → Prop) (fs₀ : Fs) (d : Nat) (temporary : Bytes) (i : Nat)
    (n : Inode) (fs : Fs) : Prop where
  quiet : Fs.Quiet E fs₀ fs
  bound : fs.lookup d temporary = some (.file i)
  new : fs₀.lookup d temporary = none
  lookup_ne : ∀ e other, (e, other) ≠ (d, temporary) → fs.lookup e other = fs₀.lookup e other
  inode_eq : fs.inodes[i]? = some n
  unpublished : n.published = false

theorem Fs.Temp.set {E : Nat → Bytes → Prop} {fs₀ fs : Fs} {d i : Nat} {temporary : Bytes}
    {n : Inode} (h : Fs.Temp E fs₀ d temporary i n fs) (f : Inode → Inode)
    (hf : (f n).published = false) : Fs.Temp E fs₀ d temporary i (f n) (fs.setInode i f) where
  quiet := h.quiet.trans (Fs.quiet_setInode h.inode_eq h.unpublished hf)
  bound := h.bound
  new := h.new
  lookup_ne := h.lookup_ne
  inode_eq := by
    rw [Fs.inodes_setInode, h.inode_eq]
    simp
  unpublished := hf

/-- A file that was created is new. -/
theorem Fs.act_createAt_ok {fs : Fs} {d i : Nat} {name : Bytes}
    (h : (fs.act (.createAt d name)).1 = .ok i) :
    fs.lookup d name = none ∧ d < fs.dirs.length ∧ i = fs.inodes.length ∧
      (fs.act (.createAt d name)).2 = fs.create d name := by
  simp only [Fs.act] at h ⊢
  split at h
  · cases h
  next hnone =>
  split at h
  · next hlt =>
    cases h
    exact ⟨hnone, hlt, rfl, by rw [if_pos hlt]⟩
  · cases h

/-- A new file is one that is being worked on. -/
theorem Fs.temp_create {E : Nat → Bytes → Prop} {fs : Fs} {d : Nat} {name : Bytes} (hE : E d name)
    (hnew : fs.lookup d name = none) (hlt : d < fs.dirs.length) :
    Fs.Temp E fs d name fs.inodes.length Fs.newInode (fs.create d name) where
  quiet := Fs.quiet_create hE hnew
  bound := (Fs.lookup_bindFile (i := fs.inodes.length)).trans (if_pos ⟨rfl, rfl, hlt⟩)
  new := hnew
  lookup_ne e other hne := by
    refine (Fs.lookup_bindFile (i := fs.inodes.length)).trans (if_neg ?_)
    rintro ⟨rfl, rfl, -⟩
    exact hne rfl
  inode_eq := by
    show (fs.inodes ++ [Fs.newInode])[fs.inodes.length]? = _
    rw [List.getElem?_append_right (Nat.le_refl _), Nat.sub_self]
    rfl
  unpublished := rfl

/-- The file system after such a file was given up. -/
theorem Fs.Temp.unlinked {E : Nat → Bytes → Prop} {fs₀ fs : Fs} {d i : Nat} {temporary : Bytes}
    {n : Inode} (h : Fs.Temp E fs₀ d temporary i n fs) (hE : E d temporary) :
    Fs.Quiet E fs ((fs.dropLink (some (.file i))).unbind d temporary) ∧
      ∀ e other, ((fs.dropLink (some (.file i))).unbind d temporary).lookup e other =
        fs₀.lookup e other := by
  have hdrop : Fs.Quiet E fs (fs.dropLink (some (.file i))) :=
    (h.set (fun n => { n with nlink := n.nlink - 1 }) h.unpublished).quiet |> h.quiet.symm.trans
  refine ⟨hdrop.trans (Fs.quiet_unbind hE fun e hdir => ?_), fun e other => ?_⟩
  · rw [Fs.lookup_dropLink, h.bound] at hdir
    cases hdir
  · rw [Fs.lookup_unbind, Fs.lookup_dropLink]
    split
    · next hsame => rw [hsame.1, hsame.2, h.new]
    · next hne =>
      refine h.lookup_ne e other fun heq => hne ?_
      exact ⟨congrArg Prod.fst heq, congrArg Prod.snd heq⟩

/-- Only content and sync state differ. -/
def Inode.Refilled (n n' : Inode) : Prop := n' = { n with data := n'.data, synced := n'.synced }

section Filling

variable {faults : Bool} {G : Fs → Fs → Prop} {E : Nat → Bytes → Prop} {fs₀ fs : Fs} {d i : Nat}
  {temporary : Bytes}

/-- A write that is repeated while it is interrupted. -/
theorem retry_writeAt_spec {offset : Nat} {data : Bytes} (hG : ∀ fs, G fs fs)
    (hwrite : ∀ k, G fs (fs.write i offset (data.take k))) (patience : Nat) :
    (files faults Alone G).wp (retry (.writeAt i offset data) patience)
      (fun r fs' => (∀ e, r = .error e → faults = true ∧ fs' = fs) ∧
        ∀ k, r = .ok k → k ≤ data.length ∧ (faults = false → k = data.length) ∧
          fs' = fs.write i offset (data.take k)) fs := by
  have round : ∀ {again : FileM (FileRes (.writeAt i offset data))},
      (faults = true → (files faults Alone G).wp again
        (fun r fs' => (∀ e, r = .error e → faults = true ∧ fs' = fs) ∧
          ∀ k, r = .ok k → k ≤ data.length ∧ (faults = false → k = data.length) ∧
            fs' = fs.write i offset (data.take k)) fs) →
      (files faults Alone G).wp (onInterrupt (.writeAt i offset data) again)
        (fun r fs' => (∀ e, r = .error e → faults = true ∧ fs' = fs) ∧
          ∀ k, r = .ok k → k ≤ data.length ∧ (faults = false → k = data.length) ∧
            fs' = fs.write i offset (data.take k)) fs := by
    intro again hagain
    refine wp_writeAt hG (fun fs₁ e hrely hfaults => ?_) fun fs₁ k hrely hle hall => ?_
    · obtain rfl : fs₁ = fs := hrely
      cases e with
      | eintr => exact hagain hfaults
      | _ => exact ⟨fun _ _ => ⟨hfaults, rfl⟩, fun k hk => by cases hk⟩
    · obtain rfl : fs₁ = fs := hrely
      refine ⟨hwrite k, fun e he => (by cases he), fun k' hk => ?_⟩
      cases hk
      exact ⟨hle, hall, rfl⟩
  induction patience with
  | zero => exact round fun hfaults => hfaults
  | succ patience ih => exact round fun _ => ih

/-- `write_all` appends its data to the temporary, or fails. -/
theorem writeLoop_spec (host : Host) (hquiet : ∀ a b, Fs.Quiet E a b → G a b) (passes : Nat) :
    ∀ {offset : Nat} {data : Bytes} {fs : Fs} {n : Inode}, data.length ≤ passes →
    Fs.Temp E fs₀ d temporary i n fs → n.data.length = offset →
    (files faults Alone G).wp (writeLoop host i passes offset data)
      (fun status fs' => ∃ n', Fs.Temp E fs₀ d temporary i n' fs' ∧ n.Refilled n' ∧
        (status = .ok ∧ n'.data = n.data ++ data ∨ status = .errIo ∧ faults = true)) fs := by
  have hG : ∀ fs, G fs fs := fun fs => hquiet fs fs (Fs.Quiet.refl fs)
  induction passes with
  | zero =>
    intro offset data fs n hlen htemp _
    obtain rfl : data = [] := List.length_eq_zero_iff.mp (Nat.le_zero.mp hlen)
    exact ⟨n, htemp, rfl, .inl ⟨rfl, (List.append_nil _).symm⟩⟩
  | succ passes ih =>
    intro offset data fs n hlen htemp hoffset
    rw [writeLoop]
    split
    · next hnil =>
      subst hnil
      exact ⟨n, htemp, rfl, .inl ⟨rfl, (List.append_nil _).symm⟩⟩
    · next hne =>
      have hstep : ∀ k, Fs.Temp E fs₀ d temporary i
          { n with data := n.data ++ data.take k, synced := false }
          (fs.write i offset (data.take k)) := by
        intro k
        have h := htemp.set
          (fun n => { n with data := splice n.data offset (data.take k), synced := false })
          htemp.unpublished
        have hsplice : splice n.data offset (data.take k) = n.data ++ data.take k := by
          subst hoffset
          rw [splice, List.take_length, List.drop_eq_nil_of_le (Nat.le_add_right _ _),
            List.append_nil]
        rwa [hsplice] at h
      refine Sem.wp_then (retry_writeAt_spec hG (fun k => ?_) host.patience) ?_
      · exact hquiet _ _ (htemp.quiet.symm.trans (hstep k).quiet)
      rintro r fs₁ ⟨herr, hok⟩
      cases r with
      | error e =>
        obtain ⟨hfaults, rfl⟩ := herr e rfl
        exact ⟨n, htemp, rfl, .inr ⟨rfl, hfaults⟩⟩
      | ok k =>
        obtain ⟨hle, hall, rfl⟩ := hok k rfl
        dsimp only
        split
        · next hzero =>
          refine ⟨_, hstep k, rfl, .inr ⟨rfl, ?_⟩⟩
          cases hf : faults with
          | true => rfl
          | false =>
            have := hall hf
            exact absurd (List.length_eq_zero_iff.mp (this.symm.trans hzero)) hne
        · next hpos =>
          have hk := Nat.pos_of_ne_zero hpos
          refine Sem.wp_mono (ih (by rw [List.length_drop]; omega) (hstep k) ?_) ?_
          · rw [List.length_append, List.length_take, Nat.min_eq_left hle, hoffset]
          · rintro status fs₂ ⟨n', htemp', hrefilled, hstatus⟩
            refine ⟨n', htemp', ?_, ?_⟩
            · rw [Inode.Refilled] at hrefilled ⊢
              exact hrefilled
            · rcases hstatus with ⟨hs, hdata⟩ | h
              · refine .inl ⟨hs, hdata.trans ?_⟩
                rw [List.append_assoc, List.take_append_drop]
              · exact .inr h

/-- `fill` gives a fresh temporary the content and the mode, or fails. -/
def FillsWith (faults : Bool) (G : Fs → Fs → Prop) (E : Nat → Bytes → Prop) (fs₀ : Fs) (d : Nat)
    (fill : Nat → FileM PvStatus) (content : Bytes) (mode : Nat) : Prop :=
  ∀ (temporary : Bytes) (i : Nat) (n : Inode) (fs : Fs), Fs.Temp E fs₀ d temporary i n fs →
    n.data = [] → n.mode = 0o600 →
    (files faults Alone G).wp (fill i)
      (fun status fs' => ∃ n', Fs.Temp E fs₀ d temporary i n' fs' ∧
        n'.own = n.own ∧ n'.nlink = n.nlink ∧
        (status = .ok ∧ n'.data = content ∧ n'.mode = mode ∨ status = .errIo ∧ faults = true)) fs

theorem fillSnapshot_fills (host : Host) (hquiet : ∀ a b, Fs.Quiet E a b → G a b)
    (header : Block pvFileHeaderLen) (ciphertext : Bytes) :
    FillsWith faults G E fs₀ d (fillSnapshot host header ciphertext) (header.bytes ++ ciphertext)
      0o600 := by
  intro temporary i n fs htemp hdata hmode
  refine Sem.wp_then (writeLoop_spec host hquiet _ (Nat.le_refl _) htemp (by rw [hdata]; rfl)) ?_
  rintro status fs₁ ⟨n₁, htemp₁, href₁, ⟨rfl, hdata₁⟩ | ⟨rfl, hfaults⟩⟩
  · rw [hdata, List.nil_append] at hdata₁
    rw [if_neg fun hne => hne rfl]
    refine Sem.wp_mono (writeLoop_spec host hquiet _ (Nat.le_refl _) htemp₁
      (by rw [hdata₁]; exact header.length_eq)) ?_
    rintro status fs₂ ⟨n₂, htemp₂, href₂, hstatus⟩
    refine ⟨n₂, htemp₂, by rw [href₂, href₁], by rw [href₂, href₁], ?_⟩
    rcases hstatus with ⟨rfl, hdata₂⟩ | ⟨rfl, hfaults⟩
    · exact .inl ⟨rfl, by rw [hdata₂, hdata₁], by rw [href₂, href₁]; exact hmode⟩
    · exact .inr ⟨rfl, hfaults⟩
  · exact ⟨n₁, htemp₁, by rw [href₁], by rw [href₁], .inr ⟨rfl, hfaults⟩⟩

/-- The content of `copy_file_exclusive_at` is what the source holds: the source is
published, so the work on the temporary does not touch it. -/
theorem copyLoop_spec (host : Host) (hquiet : ∀ a b, Fs.Quiet E a b → G a b) {j : Nat} {m : Inode}
    (hm : fs₀.inodes[j]? = some m) (hpub : m.published = true) (passes : Nat) :
    ∀ {offset : Nat} {fs : Fs} {n : Inode}, Fs.Temp E fs₀ d temporary i n fs →
    n.data = m.data.take offset → offset ≤ m.data.length → m.data.length - offset < passes →
    (files faults Alone G).wp (copyLoop host (.file j) i passes offset)
      (fun status fs' => ∃ n', Fs.Temp E fs₀ d temporary i n' fs' ∧ n.Refilled n' ∧
        (status = .ok ∧ n'.data = m.data ∨ status = .errIo ∧ faults = true)) fs := by
  have hG : ∀ fs, G fs fs := fun fs => hquiet fs fs (Fs.Quiet.refl fs)
  induction passes with
  | zero =>
    intro offset fs n _ _ _ hpasses
    omega
  | succ passes ih =>
    intro offset fs n htemp hdata hle hpasses
    rw [copyLoop]
    have hfrozen : Frozen Alone j m.data fs := frozen_alone ((htemp.quiet.inode_iff j m hpub).mpr hm)
    refine Sem.wp_then (retry_readAt_spec hG alone_trans host.patience hfrozen) ?_
    rintro r fs₁ ⟨hrely, hanswer⟩
    obtain rfl : fs₁ = fs := hrely
    cases r with
    | error e => exact ⟨n, htemp, rfl, .inr ⟨rfl, hanswer⟩⟩
    | ok got =>
      obtain ⟨hpre, hnil⟩ := hanswer
      dsimp only
      split
      · next hgot =>
        -- Nothing left to read: the end of the file.
        have hend := congrArg List.length (hnil hgot)
        simp only [slice, List.length_take, List.length_drop, List.length_nil] at hend
        refine ⟨n, htemp, rfl, .inl ⟨rfl, ?_⟩⟩
        rw [hdata, List.take_of_length_le (by omega)]
      · next hgot =>
        have hpos : 0 < got.length := List.length_pos_of_ne_nil hgot
        have hgoteq : got = slice m.data offset got.length := by
          have htake := List.prefix_iff_eq_take.mp hpre
          have hlen := hpre.length_le
          rw [slice, List.length_take] at hlen
          rwa [slice, List.take_take, Nat.min_eq_left (by omega)] at htake
        have hgotle : offset + got.length ≤ m.data.length := by
          have hlen := congrArg List.length hgoteq
          simp only [slice, List.length_take, List.length_drop] at hlen
          omega
        refine Sem.wp_then (writeLoop_spec host hquiet _ (Nat.le_refl _) htemp
          (by rw [hdata, List.length_take, Nat.min_eq_left hle])) ?_
        rintro status fs₂ ⟨n₂, htemp₂, href₂, ⟨rfl, hdata₂⟩ | ⟨rfl, hfaults⟩⟩
        · rw [if_neg fun hne => hne rfl]
          have hnext : n₂.data = m.data.take (offset + got.length) := by
            rw [hdata₂, hdata, List.take_add, hgoteq]
            rw [slice, List.length_take, List.length_drop, Nat.min_eq_left (by omega)]
          refine Sem.wp_mono (ih htemp₂ hnext hgotle (by omega)) ?_
          rintro status fs₃ ⟨n₃, htemp₃, href₃, hstatus⟩
          refine ⟨n₃, htemp₃, ?_, hstatus⟩
          rw [Inode.Refilled] at href₂ href₃ ⊢
          rw [href₂] at href₃
          exact href₃
        · exact ⟨n₂, htemp₂, href₂, .inr ⟨rfl, hfaults⟩⟩

theorem fillSnapshotMode_fills (host : Host) (hquiet : ∀ a b, Fs.Quiet E a b → G a b)
    (header : Block pvFileHeaderLen) (ciphertext : Bytes) (finalMode : Nat) :
    FillsWith faults G E fs₀ d (fillSnapshotMode host header ciphertext finalMode)
      (header.bytes ++ ciphertext) finalMode := by
  intro temporary i n fs htemp hdata hmode
  refine Sem.wp_then
    (fillSnapshot_fills host hquiet header ciphertext temporary i n fs htemp hdata hmode) ?_
  rintro status fs₁ ⟨n₁, htemp₁, hown, hlinks, ⟨rfl, hdata₁, -⟩ | ⟨rfl, hfaults⟩⟩
  · rw [if_neg fun hne => hne rfl]
    refine wp_plain rfl (fun fs₂ e hrely he => ?_) fun fs₂ _ hrely _ => ?_
    · obtain rfl : fs₂ = fs₁ := hrely
      refine ⟨hquiet _ _ (Fs.Quiet.refl _), n₁, htemp₁, hown, hlinks, .inr ⟨rfl, ?_⟩⟩
      cases hf : faults with
      | true => rfl
      | false => cases he hf
    · obtain rfl : fs₂ = fs₁ := hrely
      have htemp₂ := htemp₁.set (fun n => { n with mode := finalMode }) htemp₁.unpublished
      exact ⟨hquiet _ _ (htemp₁.quiet.symm.trans htemp₂.quiet), _, htemp₂, hown, hlinks,
        .inl ⟨rfl, hdata₁, rfl⟩⟩
  · exact ⟨n₁, htemp₁, hown, hlinks, .inr ⟨rfl, hfaults⟩⟩

/-! ## The steps around it -/

/-- One of the names drawn for a temporary of `name` is free. -/
def Host.Free (host : Host) (fs : Fs) (d : Nat) (name : Bytes) : Prop :=
  ∃ attempt < 32, fs.lookup d (temporaryName name (host.suffix name attempt)) = none

/-- There is room for a temporary of `name`. -/
structure Host.Room (host : Host) (fs : Fs) (d : Nat) (name : Bytes) : Prop where
  dir_lt : d < fs.dirs.length
  short : name.length + 13 < pathMax
  free : host.Free fs d name

theorem length_temporaryName (name : Bytes) (suffix : UInt32) :
    (temporaryName name suffix).length = name.length + 13 := by
  rw [temporaryName, List.length_append, List.length_append, length_hex8]
  rfl

theorem openTemporary_spec {name : Bytes} (host : Host) (hquiet : ∀ a b, Fs.Quiet E a b → G a b)
    (hE : ∀ suffix, fs₀.lookup d (temporaryName name suffix) = none →
      E d (temporaryName name suffix)) (attempts : Nat) :
    (files faults Alone G).wp (openTemporary host d name attempts)
      (fun r fs' =>
        (∃ suffix i, r = .ok (suffix, i) ∧
          Fs.Temp E fs₀ d (temporaryName name suffix) i Fs.newInode fs') ∨
        (fs' = fs₀ ∧ (r = .error .errIo ∨ r = .error .errLimit) ∧
          (faults = false → d < fs₀.dirs.length → name.length + 13 < pathMax →
            ∀ k < attempts, fs₀.lookup d (temporaryName name (host.suffix name k)) ≠ none))) fs₀ := by
  have hG : ∀ fs, G fs fs := fun fs => hquiet fs fs (Fs.Quiet.refl fs)
  induction attempts with
  | zero => exact .inr ⟨rfl, .inl rfl, fun _ _ _ k hk => absurd hk (Nat.not_lt_zero k)⟩
  | succ attempts ih =>
    rw [openTemporary]
    split
    · next hlong =>
      refine .inr ⟨rfl, .inr rfl, fun _ _ hshort => ?_⟩
      rw [length_temporaryName] at hlong
      omega
    · refine wp_plain rfl (fun fs₁ e hrely he => ?_) fun fs₁ i hrely hact => ?_
      · obtain rfl : fs₁ = fs₀ := hrely
        refine ⟨hG fs₁, ?_⟩
        -- Without faults, a name in an existing directory is refused because it is taken.
        have hwhy : faults = false → d < fs₁.dirs.length →
            fs₁.lookup d (temporaryName name (host.suffix name attempts)) ≠ none ∧ e = .eexist := by
          intro hfalse hlt
          have hact := he hfalse
          simp only [Fs.act, hlt, if_true] at hact
          split at hact
          · next hbound =>
            cases hact
            exact ⟨by rw [hbound]; exact Option.some_ne_none _, rfl⟩
          · cases hact
        cases e with
        | eexist =>
          refine Sem.wp_mono ih fun r fs' h => ?_
          rcases h with h | ⟨hfs, hr, hrest⟩
          · exact .inl h
          · refine .inr ⟨hfs, hr, fun hfalse hlt hshort k hk => ?_⟩
            rcases Nat.lt_succ_iff_lt_or_eq.mp hk with hk | rfl
            · exact hrest hfalse hlt hshort k hk
            · exact (hwhy hfalse hlt).1
        | _ => exact .inr ⟨rfl, .inl rfl, fun hfalse hlt => absurd (hwhy hfalse hlt).2 fun h => by cases h⟩
      · obtain rfl : fs₁ = fs₀ := hrely
        obtain ⟨hnew, hlt, rfl, heq⟩ := Fs.act_createAt_ok hact
        have htemp := Fs.temp_create (hE _ hnew) hnew hlt
        rw [heq]
        exact ⟨hquiet _ _ htemp.quiet, .inl ⟨_, _, rfl, htemp⟩⟩

theorem checkTemporary_spec {n : Inode} (hG : ∀ fs, G fs fs)
    (htemp : Fs.Temp E fs₀ d temporary i n fs) :
    (files faults Alone G).wp (checkTemporary i)
      (fun status fs' => fs' = fs ∧
        (status = .ok ∨ status = .errIo ∧ (faults = false → ¬n.isPrivate))) fs := by
  refine wp_query rfl hG (fun fs₁ e hrely he => ⟨hrely, .inr ⟨rfl, fun hfalse _ => ?_⟩⟩)
    fun fs₁ st hrely hstat => ?_
  · have hact := he hfalse
    rw [show fs₁ = fs from hrely] at hact
    simp only [Fs.act, Fs.statOf, htemp.inode_eq] at hact
    cases hact
  · obtain rfl : fs₁ = fs := hrely
    simp only [Fs.act, Fs.statOf, htemp.inode_eq] at hstat
    cases hstat
    refine ⟨rfl, ?_⟩
    by_cases hpriv : (n.stat i).isPrivate
    · exact .inl (if_pos hpriv)
    · exact .inr ⟨if_neg hpriv, fun _ h => hpriv (Inode.stat_isPrivate.mpr h)⟩

/-- A temporary that was filled and synced without a failure has the whole content. -/
theorem fillTemporary_spec {fill : Nat → FileM PvStatus} {content : Bytes} {mode : Nat}
    (hquiet : ∀ a b, Fs.Quiet E a b → G a b) (hmode : privateMode mode)
    (hfill : FillsWith faults G E fs₀ d fill content mode)
    (htemp : Fs.Temp E fs₀ d temporary i Fs.newInode fs) :
    (files faults Alone G).wp (fillTemporary i fill)
      (fun status fs' => ∃ n, Fs.Temp E fs₀ d temporary i n fs' ∧
        (status = .ok ∧ n = ⟨content, true, 1, mode, true, false⟩ ∨
          status = .errIo ∧ faults = true)) fs := by
  have hG : ∀ fs, G fs fs := fun fs => hquiet fs fs (Fs.Quiet.refl fs)
  have hfault : (faults = false → False) → faults = true := by
    intro h
    cases hf : faults with
    | true => rfl
    | false => exact (h hf).elim
  refine Sem.wp_then (checkTemporary_spec hG htemp) ?_
  rintro status fs₁ ⟨rfl, rfl | ⟨rfl, hbad⟩⟩
  swap
  · refine ⟨_, htemp, .inr ⟨rfl, hfault fun hfalse => hbad hfalse ?_⟩⟩
    exact ⟨rfl, rfl, .inr rfl⟩
  rw [if_neg fun hne => hne rfl]
  refine Sem.wp_then (hfill temporary i _ fs₁ htemp rfl rfl) ?_
  rintro status fs₂ ⟨n₂, htemp₂, hown, hlinks, ⟨rfl, hdata, hmode₂⟩ | ⟨rfl, hfaults⟩⟩
  swap
  · exact ⟨n₂, htemp₂, .inr ⟨rfl, hfaults⟩⟩
  rw [if_neg fun hne => hne rfl]
  refine Sem.wp_then (checkTemporary_spec hG htemp₂) ?_
  rintro status fs₃ ⟨rfl, rfl | ⟨rfl, hbad⟩⟩
  swap
  · refine ⟨_, htemp₂, .inr ⟨rfl, hfault fun hfalse => hbad hfalse ?_⟩⟩
    exact ⟨hown, hlinks, hmode₂ ▸ hmode⟩
  rw [if_neg fun hne => hne rfl]
  refine wp_plain rfl (fun fs₄ e hrely he => ?_) fun fs₄ _ hrely _ => ?_
  · obtain rfl : fs₄ = fs₃ := hrely
    refine ⟨hG fs₄, n₂, htemp₂, .inr ⟨rfl, hfault fun hfalse => ?_⟩⟩
    cases he hfalse
  · obtain rfl : fs₄ = fs₃ := hrely
    have htemp₄ := htemp₂.set (fun n => { n with synced := true }) htemp₂.unpublished
    refine ⟨hquiet _ _ (htemp₂.quiet.symm.trans htemp₄.quiet), _, htemp₄, .inl ⟨rfl, ?_⟩⟩
    rw [hdata, hown, hlinks, hmode₂, htemp₂.unpublished]
    rfl

theorem closing_spec {status : PvStatus} (hG : ∀ fs, G fs fs) :
    (files faults Alone G).wp (closing status)
      (fun s fs' => fs' = fs ∧
        (s = status ∨ status = .ok ∧ s = .errIo ∧ faults = true)) fs := by
  refine wp_close hG fun fs₁ r hrely hr => ?_
  obtain rfl : fs₁ = fs := hrely
  cases r with
  | ok _ => exact ⟨rfl, .inl rfl⟩
  | error e =>
    refine ⟨rfl, ?_⟩
    by_cases hok : status = .ok
    · refine .inr ⟨hok, if_pos hok, ?_⟩
      cases hf : faults with
      | true => rfl
      | false => cases hr hf
    · exact .inl (if_neg hok)

/-- A temporary that is given up leaves no trace, but perhaps itself. -/
theorem discard_spec {sure : FileOp → Prop} {n : Inode} {status : PvStatus}
    (hquiet : ∀ a b, Fs.Quiet E a b → G a b) (hE : E d temporary)
    (htemp : Fs.Temp E fs₀ d temporary i n fs) :
    (filesSure sure faults Alone G).wp (discard d temporary status)
      (fun s fs' => s = status ∧ Fs.Quiet E fs₀ fs' ∧
        (faults = false ∨ sure (.unlinkAt d temporary) →
          ∀ e other, fs'.lookup e other = fs₀.lookup e other)) fs := by
  refine wp_plain_sure rfl (fun fs₁ e hrely he => ?_) fun fs₁ _ hrely _ => ?_
  · obtain rfl : fs₁ = fs := hrely
    refine ⟨hquiet _ _ (Fs.Quiet.refl _), rfl, htemp.quiet, fun hsure => ?_⟩
    have hact := he hsure
    simp only [Fs.act, htemp.bound] at hact
    cases hact
  · obtain rfl : fs₁ = fs := hrely
    have hact : (fs₁.act (.unlinkAt d temporary)).2 =
        (fs₁.dropLink (some (.file i))).unbind d temporary := by
      simp only [Fs.act, htemp.bound]
    obtain ⟨hq, hsame⟩ := htemp.unlinked hE
    rw [hact]
    exact ⟨hquiet _ _ hq, rfl, htemp.quiet.trans hq, fun _ => hsame⟩

/-! ## The specification -/

/-- A file that was published: own, private, with one name and synced content. -/
def publishedInode (content : Bytes) (mode : Nat) : Inode := ⟨content, true, 1, mode, true, true⟩

/-- What publishing may have done: all of it, or nothing that shows. -/
inductive PublishOutcome (E : Nat → Bytes → Prop) (d : Nat) (name content : Bytes) (mode : Nat)
    (noReplace : Bool) (unsynced : PvStatus) (fs₀ fs : Fs) : PvStatus → Prop
  | published {i : Nat} {status : PvStatus}
      (h : Fs.Published E d name i (publishedInode content mode) fs₀ fs)
      (hfree : noReplace = true → fs₀.lookup d name = none)
      (hstatus : status = .ok ∨ status = unsynced) :
      PublishOutcome E d name content mode noReplace unsynced fs₀ fs status
  | nothing {status : PvStatus} (h : Fs.Quiet E fs₀ fs)
      (hstatus : status = .errIo ∨ status = .errLimit ∨ noReplace = true ∧ status = .errExists) :
      PublishOutcome E d name content mode noReplace unsynced fs₀ fs status

/-- What publishing does when no call fails. -/
structure PublishClean (d : Nat) (name : Bytes) (noReplace : Bool) (fs₀ fs : Fs)
    (status : PvStatus) : Prop where
  lookup_ne : ∀ e other, (e, other) ≠ (d, name) → fs.lookup e other = fs₀.lookup e other
  ok : fs₀.lookup d name = none ∨ noReplace = false ∧ (∃ i, fs₀.lookup d name = some (.file i)) →
    status = .ok
  exists_eq : noReplace = true → fs₀.lookup d name ≠ none → status = .errExists

/-- What publishing did, and what can be said when no call fails, or no `unlink`. -/
structure PublishResult (host : Host) (sure : FileOp → Prop) (faults : Bool)
    (E : Nat → Bytes → Prop) (d : Nat) (name content : Bytes) (mode : Nat) (noReplace : Bool)
    (unsynced : PvStatus) (fs₀ : Fs) (status : PvStatus) (fs : Fs) : Prop where
  outcome : PublishOutcome E d name content mode noReplace unsynced fs₀ fs status
  clean : faults = false → host.Room fs₀ d name → PublishClean d name noReplace fs₀ fs status
  traceless : (∀ temporary, sure (.unlinkAt d temporary)) → status ≠ .ok → status ≠ unsynced →
    ∀ e other, fs.lookup e other = fs₀.lookup e other

section Publishing

variable {host : Host} {sure : FileOp → Prop} {name content : Bytes} {mode : Nat} {noReplace : Bool}
  {unsynced : PvStatus} {suffix : UInt32}

/-- A temporary that could not be finished is discarded. -/
theorem discard_unfinished (hquiet : ∀ a b, Fs.Quiet E a b → G a b) {n : Inode}
    (hE : E d (temporaryName name suffix)) (hfaults : faults = true)
    (htemp : Fs.Temp E fs₀ d (temporaryName name suffix) i n fs) :
    (filesSure sure faults Alone G).wp (discard d (temporaryName name suffix) .errIo)
      (PublishResult host sure faults E d name content mode noReplace unsynced fs₀) fs := by
  refine Sem.wp_mono (discard_spec hquiet hE htemp) ?_
  rintro s fs' ⟨rfl, hq, hsame⟩
  refine ⟨.nothing hq (.inl rfl), fun hfalse => ?_, fun hsure _ _ => hsame (.inr (hsure _))⟩
  rw [hfaults] at hfalse
  cases hfalse

/-- Why a rename without faults is refused: a name that must be free is taken, or a directory
stands there. -/
theorem Fs.act_renameAt_error {e : Errno} (hbound : fs.lookup d temporary = some (.file i))
    (hact : (fs.act (.renameAt d temporary name noReplace)).1 = .error e) :
    ¬(fs.lookup d name = none ∨ noReplace = false ∧ ∃ j, fs.lookup d name = some (.file j)) ∧
      (noReplace = true → e = .eexist) := by
  simp only [Fs.act, hbound] at hact
  rcases hold : fs.lookup d name with _ | ⟨j⟩ | _ | _
  · simp only [hold] at hact
    cases hact
  · cases noReplace with
    | false => simp only [hold] at hact; cases hact
    | true =>
      simp only [hold] at hact
      cases hact
      exact ⟨(by rintro (h | ⟨h, -⟩) <;> cases h), fun _ => rfl⟩
  · simp only [hold] at hact
    cases hact
    exact ⟨(by rintro (h | ⟨-, j, h⟩) <;> cases h), fun h => if_pos h⟩
  · cases noReplace with
    | false => simp only [hold] at hact; cases hact
    | true =>
      simp only [hold] at hact
      cases hact
      exact ⟨(by rintro (h | ⟨h, -⟩) <;> cases h), fun _ => rfl⟩

/-- A rename that succeeded met nothing in its way. -/
theorem Fs.act_renameAt_ok {v : Unit} (hbound : fs.lookup d temporary = some (.file i))
    (hact : (fs.act (.renameAt d temporary name noReplace)).1 = .ok v) :
    (fs.act (.renameAt d temporary name noReplace)).2 = fs.rename d temporary name i ∧
      (noReplace = true → fs.lookup d name = none) ∧ ∀ e, fs.lookup d name ≠ some (.dir e) := by
  simp only [Fs.act, hbound] at hact ⊢
  rcases hold : fs.lookup d name with _ | ⟨⟩ | _ | _
  · exact ⟨rfl, fun _ => rfl, fun e h => by cases h⟩
  · cases noReplace with
    | false => exact ⟨rfl, fun h => (by cases h), fun e h => by cases h⟩
    | true => rw [hold] at hact; cases hact
  · rw [hold] at hact; cases hact
  · cases noReplace with
    | false => exact ⟨rfl, fun h => (by cases h), fun e h => by cases h⟩
    | true => rw [hold] at hact; cases hact

/-- After the rename, only the new name is bound differently than before the temporary. -/
theorem Fs.Temp.lookup_rename {n : Inode} (h : Fs.Temp E fs₀ d temporary i n fs) {e : Nat}
    {other : Bytes} (hne : (e, other) ≠ (d, name)) :
    (fs.rename d temporary name i).lookup e other = fs₀.lookup e other := by
  refine (Fs.lookup_bindFile (i := i)).trans ((if_neg ?_).trans (Fs.lookup_unbind.trans ?_))
  · rintro ⟨rfl, rfl, -⟩
    exact hne rfl
  · split
    · next heq => rw [heq.1, heq.2, h.new]
    · next hother =>
      refine h.lookup_ne e other fun heq => hother ?_
      exact ⟨congrArg Prod.fst heq, congrArg Prod.snd heq⟩

/-- **The rename.** It gives the finished temporary its name, or the temporary is discarded. -/
theorem renameTemporary_spec (hquiet : ∀ a b, Fs.Quiet E a b → G a b)
    (hE : E d (temporaryName name suffix)) (hname : ¬E d name) (hkept : fs₀.Kept d name)
    (hpublish : ∀ a b i, Fs.Quiet E fs₀ a →
      Fs.Published E d name i (publishedInode content mode) a b →
      (noReplace = true → a.lookup d name = none) → G a b)
    (htemp : Fs.Temp E fs₀ d (temporaryName name suffix) i ⟨content, true, 1, mode, true, false⟩ fs) :
    (filesSure sure faults Alone G).wp
      (do
        match ← sys (.renameAt d (temporaryName name suffix) name noReplace) with
        | .error e =>
          discard d (temporaryName name suffix)
            (if noReplace = true ∧ e = .eexist then .errExists else .errIo)
        | .ok _ =>
          match ← sys (.fsyncDir d) with
          | .ok _ => return .ok
          | .error _ => return unsynced)
      (PublishResult host sure faults E d name content mode noReplace unsynced fs₀) fs := by
  have hG : ∀ fs, G fs fs := fun fs => hquiet fs fs (Fs.Quiet.refl fs)
  have hlook : fs.lookup d name = fs₀.lookup d name := htemp.quiet.lookup_eq d name hname
  refine wp_plain_sure rfl (fun fs₁ e hrely he => ?_) fun fs₁ _ hrely hact => ?_
  · obtain rfl : fs₁ = fs := hrely
    refine ⟨hG fs₁, Sem.wp_mono (discard_spec hquiet hE htemp) ?_⟩
    rintro s fs₂ ⟨rfl, hq, hsame⟩
    refine ⟨.nothing hq ?_, fun hfalse _ => ?_, fun hsure _ _ => hsame (.inr (hsure _))⟩
    · by_cases h : noReplace = true ∧ e = .eexist
      · exact .inr (.inr ⟨h.1, if_pos h⟩)
      · exact .inl (if_neg h)
    · obtain ⟨hbad, hexists⟩ := Fs.act_renameAt_error htemp.bound (he (.inl hfalse))
      rw [hlook] at hbad
      exact ⟨fun e' other _ => hsame (.inl hfalse) e' other, fun h => absurd h hbad,
        fun hno _ => if_pos ⟨hno, hexists hno⟩⟩
  · obtain rfl : fs₁ = fs := hrely
    obtain ⟨hdid, hfree, hdir⟩ := Fs.act_renameAt_ok htemp.bound hact
    rw [hdid]
    have hpub := Fs.published_rename hE htemp.bound htemp.inode_eq htemp.unpublished
      (htemp.quiet.kept hname hkept) hdir
    refine ⟨hpublish _ _ i htemp.quiet hpub hfree, ?_⟩
    have hpub₀ := hpub.after_quiet htemp.quiet hname hkept
    rw [hlook] at hfree
    refine wp_plain_sure rfl (fun fs₂ e hrely he => ?_) fun fs₂ _ hrely _ => ?_
    · obtain rfl := hrely
      refine ⟨hG _, .published hpub₀ hfree (.inr rfl), fun hfalse => ?_,
        fun _ _ hne => absurd rfl hne⟩
      cases he (.inl hfalse)
    · obtain rfl := hrely
      refine ⟨hG _, .published hpub₀ hfree (.inl rfl), fun _ _ => ?_, fun _ hne => absurd rfl hne⟩
      exact ⟨fun e other hne => htemp.lookup_rename hne, fun _ => rfl,
        fun hno hne => absurd (hfree hno) hne⟩

/-- **Publishing.** Whatever fails, either the name leads to a new private file with
exactly the wanted, synced content, or nothing has changed but temporaries; and the one
step that is not quiet is the rename. -/
theorem publishAt_spec {fill : Nat → FileM PvStatus} {input : Bool} (host : Host)
    (hquiet : ∀ a b, Fs.Quiet E a b → G a b)
    (hE : ∀ suffix, fs₀.lookup d (temporaryName name suffix) = none →
      E d (temporaryName name suffix))
    (hname : ¬E d name) (hkept : fs₀.Kept d name) (hmode : privateMode mode)
    (hpublish : ∀ a b i, Fs.Quiet E fs₀ a →
      Fs.Published E d name i (publishedInode content mode) a b →
      (noReplace = true → a.lookup d name = none) → G a b)
    (hfill : FillsWith faults G E fs₀ d fill content mode) :
    (filesSure sure faults Alone G).wp (publishAt host d name fill input noReplace unsynced)
      (PublishResult host sure faults E d name content mode noReplace unsynced fs₀) fs₀ := by
  have hG : ∀ fs, G fs fs := fun fs => hquiet fs fs (Fs.Quiet.refl fs)
  refine Sem.wp_then (wp_sure (openTemporary_spec host hquiet hE 32)) ?_
  rintro r fs₁ (⟨suffix, i, rfl, htemp⟩ | ⟨rfl, hr, hwhy⟩)
  swap
  · -- No temporary could be opened.
    have hdone : ∀ status, status = .errIo ∨ status = .errLimit →
        PublishResult host sure faults E d name content mode noReplace unsynced fs₁ status fs₁ := by
      intro status hstatus
      refine ⟨.nothing (Fs.Quiet.refl _) (hstatus.imp_right .inl), fun hfalse hroom => ?_,
        fun _ _ _ _ _ => rfl⟩
      obtain ⟨hlt, hshort, attempt, hattempt, hfree⟩ := hroom
      exact absurd hfree (hwhy hfalse hlt hshort attempt hattempt)
    have herror : ∀ status, (status = .errIo ∨ status = .errLimit) →
        (filesSure sure faults Alone G).wp (closingInput input status)
          (PublishResult host sure faults E d name content mode noReplace unsynced fs₁) fs₁ := by
      intro status hstatus
      cases input with
      | false => exact hdone status hstatus
      | true =>
        refine Sem.wp_mono (wp_sure (closing_spec hG)) ?_
        rintro s fs₂ ⟨rfl, rfl | ⟨-, rfl, -⟩⟩
        · exact hdone _ hstatus
        · exact hdone _ (.inl rfl)
    rcases hr with rfl | rfl
    · exact herror _ (.inl rfl)
    · exact herror _ (.inr rfl)
  refine Sem.wp_then (wp_sure (fillTemporary_spec hquiet hmode hfill htemp)) ?_
  rintro status fs₂ ⟨n, htemp₂, hstatus⟩
  -- Closing the input and the temporary can only turn success into an I/O error.
  have hclose : ∀ {status fs}, (status = .ok ∧ n = ⟨content, true, 1, mode, true, false⟩ ∨
      status = .errIo ∧ faults = true) → Fs.Temp E fs₀ d (temporaryName name suffix) i n fs →
      (filesSure sure faults Alone G).wp (closing status)
        (fun s fs' => (s = .ok ∧ n = ⟨content, true, 1, mode, true, false⟩ ∨
          s = .errIo ∧ faults = true) ∧ Fs.Temp E fs₀ d (temporaryName name suffix) i n fs') fs := by
    intro status fs hstatus htemp
    refine Sem.wp_mono (wp_sure (closing_spec hG)) ?_
    rintro s fs' ⟨rfl, rfl | ⟨-, rfl, hfaults⟩⟩
    · exact ⟨hstatus, htemp⟩
    · exact ⟨.inr ⟨rfl, hfaults⟩, htemp⟩
  have hinput : (filesSure sure faults Alone G).wp (closingInput input status)
      (fun s fs' => (s = .ok ∧ n = ⟨content, true, 1, mode, true, false⟩ ∨
        s = .errIo ∧ faults = true) ∧ Fs.Temp E fs₀ d (temporaryName name suffix) i n fs') fs₂ := by
    cases input with
    | false => exact ⟨hstatus, htemp₂⟩
    | true => exact hclose hstatus htemp₂
  refine Sem.wp_then hinput ?_
  rintro status fs₃ ⟨hstatus₃, htemp₃⟩
  refine Sem.wp_then (hclose hstatus₃ htemp₃) ?_
  have hEnew : E d (temporaryName name suffix) := hE suffix htemp.new
  rintro status fs₄ ⟨⟨rfl, rfl⟩ | ⟨rfl, hfaults⟩, htemp₄⟩
  · rw [if_neg fun hne => hne rfl]
    exact renameTemporary_spec hquiet hEnew hname hkept hpublish htemp₄
  · rw [if_pos (by decide)]
    exact discard_unfinished hquiet hEnew hfaults htemp₄

/-- `write_atomic_at` publishes the snapshot under the name of the location. -/
theorem writeAtomicAt_spec {location : Location} {header : Block pvFileHeaderLen}
    {ciphertext : Bytes} (host : Host) (hquiet : ∀ a b, Fs.Quiet E a b → G a b)
    (hE : ∀ suffix, fs₀.lookup location.dir (temporaryName location.name suffix) = none →
      E location.dir (temporaryName location.name suffix))
    (hname : ¬E location.dir location.name) (hkept : fs₀.Kept location.dir location.name)
    (hpublish : ∀ a b i, Fs.Quiet E fs₀ a →
      Fs.Published E location.dir location.name i
        (publishedInode (header.bytes ++ ciphertext) 0o600) a b →
      (noReplace = true → a.lookup location.dir location.name = none) → G a b)
    (hne : ciphertext ≠ []) :
    (filesSure sure faults Alone G).wp (writeAtomicAt host location header ciphertext noReplace)
      (PublishResult host sure faults E location.dir location.name (header.bytes ++ ciphertext) 0o600
        noReplace .errDurability fs₀) fs₀ := by
  rw [writeAtomicAt, if_neg hne]
  exact publishAt_spec host hquiet hE hname hkept (.inr rfl) hpublish
    (fillSnapshot_fills host hquiet header ciphertext)

/-- `write_snapshot_exclusive_at` publishes the snapshot under a name that is free. -/
theorem writeSnapshotExclusiveAt_spec {header : Block pvFileHeaderLen} {ciphertext : Bytes}
    {finalMode : Nat} (host : Host) (hquiet : ∀ a b, Fs.Quiet E a b → G a b)
    (hE : ∀ suffix, fs₀.lookup d (temporaryName name suffix) = none →
      E d (temporaryName name suffix))
    (hname : ¬E d name) (hkept : fs₀.Kept d name)
    (hpublish : ∀ a b i, Fs.Quiet E fs₀ a →
      Fs.Published E d name i (publishedInode (header.bytes ++ ciphertext) finalMode) a b →
      (true = true → a.lookup d name = none) → G a b)
    (hne : ciphertext ≠ []) (hmode : privateMode finalMode) :
    (filesSure sure faults Alone G).wp
      (writeSnapshotExclusiveAt host d name header ciphertext finalMode)
      (PublishResult host sure faults E d name (header.bytes ++ ciphertext) finalMode true .errDurability
        fs₀) fs₀ := by
  rw [writeSnapshotExclusiveAt, if_neg (by rintro (h | h); exacts [hne h, h hmode])]
  exact publishAt_spec host hquiet hE hname hkept hmode hpublish
    (fillSnapshotMode_fills host hquiet header ciphertext finalMode)

/-- `copy_file_exclusive_at` publishes a copy of a published file under a name that is
free. -/
theorem copyFileExclusiveAt_spec {sourceDir : Nat} {sourceName : Bytes} (host : Host)
    (hquiet : ∀ a b, Fs.Quiet E a b → G a b)
    (hE : ∀ suffix, fs₀.lookup d (temporaryName name suffix) = none →
      E d (temporaryName name suffix))
    (hname : ¬E d name) (hkept : fs₀.Kept d name)
    (hsource : fs₀.Kept sourceDir sourceName) (hcontent : fs₀.slot sourceDir sourceName = .holds content)
    (hpublish : ∀ a b i, Fs.Quiet E fs₀ a →
      Fs.Published E d name i (publishedInode content 0o600) a b →
      (true = true → a.lookup d name = none) → G a b) :
    (filesSure sure faults Alone G).wp (copyFileExclusiveAt host sourceDir sourceName d name)
      (fun status fs' => PublishOutcome E d name content 0o600 true .errIo fs₀ fs' status ∧
        (faults = false → host.Room fs₀ d name →
          (∃ i m, fs₀.lookup sourceDir sourceName = some (.file i) ∧ fs₀.inodes[i]? = some m ∧
            m.isPrivate) → PublishClean d name true fs₀ fs' status)) fs₀ := by
  have hG : ∀ fs, G fs fs := fun fs => hquiet fs fs (Fs.Quiet.refl fs)
  refine Sem.wp_then (wp_sure (openPrivateSnapshotAt_spec hG alone_refl alone_trans)) ?_
  rintro r fs₁ ⟨hrely, hresult⟩
  obtain rfl : fs₁ = fs₀ := hrely
  cases r with
  | error status =>
    obtain ⟨rfl, hwhy⟩ := hresult
    refine ⟨.nothing (Fs.Quiet.refl _) (.inl rfl), ?_⟩
    rintro hfalse - ⟨i, m, hlook, hm, hpriv⟩
    exact absurd hpriv (hwhy hfalse (fun _ h => h) i m hlook hm)
  | ok opened =>
    obtain ⟨node, st⟩ := opened
    obtain ⟨j, rfl, fs₂, fs₃, m, h₂, hlook, h₃, -, hm, -, rfl⟩ := hresult
    rw [show fs₂ = fs₁ from h₂] at hlook h₃
    rw [show fs₃ = fs₁ from h₃] at hm
    obtain ⟨m', hm', hpub⟩ := hsource j hlook
    rw [hm] at hm'
    cases hm'
    have hdata : m.data = content := by
      simp only [Fs.slot, hlook, hm] at hcontent
      exact Slot.holds.inj hcontent
    have hfill : FillsWith faults G E fs₁ d
        (fun output => copyLoop host (.file j) output ((m.stat j).size + 1) 0) content 0o600 := by
      intro temporary i n fs htemp hnil hmode
      refine Sem.wp_mono (copyLoop_spec host hquiet hm hpub _ htemp ?_ (Nat.zero_le _) ?_) ?_
      · rw [hnil]
        rfl
      · exact Nat.lt_succ_self _
      · rintro status fs' ⟨n', htemp', href, hstatus⟩
        refine ⟨n', htemp', by rw [href], by rw [href], ?_⟩
        rcases hstatus with ⟨rfl, hcopy⟩ | hfail
        · exact .inl ⟨rfl, hcopy.trans hdata, by rw [href]; exact hmode⟩
        · exact .inr hfail
    refine Sem.wp_mono (publishAt_spec host hquiet hE hname hkept (.inr rfl) hpublish hfill) ?_
    exact fun status fs' h => ⟨h.outcome, fun hfalse hroom _ => h.clean hfalse hroom⟩

end Publishing

end Filling

end PVault
