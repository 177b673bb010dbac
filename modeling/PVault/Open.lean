import PVault.CborDecode
import PVault.Change

/-!
# Opening a vault (`src/store.c`)

`open_common` reads the file at a path, unwraps the master key from one of its keyslots,
decrypts the body under it and decodes the payload.

`openDisk_ok` says what a successful open did: every step succeeded on the file that
the path led to.
-/

namespace PVault

open Binary Conc

/-! ## Reading by path -/

/-- The path leads to the location. -/
def Fs.At (fs : Fs) (path : Bytes) (location : Location) : Prop :=
  ∃ parent, splitParentAndName path = .ok (parent, location.name) ∧
    fs.resolve parent = some location.dir

theorem Fs.At.unique {fs : Fs} {path : Bytes} {a b : Location} (ha : fs.At path a)
    (hb : fs.At path b) : a = b := by
  obtain ⟨parent, hsplit, hres⟩ := ha
  obtain ⟨parent', hsplit', hres'⟩ := hb
  rw [hsplit] at hsplit'
  obtain ⟨rfl, hname⟩ := Prod.mk.inj (Except.ok.inj hsplit')
  rw [hres] at hres'
  cases a
  cases b
  exact Location.mk.injEq .. ▸ ⟨Option.some.inj hres', hname⟩

theorem Fs.LeadsTo.at {fs : Fs} {path : Bytes} {location : Location}
    (h : fs.LeadsTo path location) : fs.At path location := by
  obtain ⟨parent, -, hsplit, hres, -⟩ := h
  exact ⟨parent, hsplit, hres⟩

/-- The directory of the location is acceptable for a vault. -/
def Fs.Hosts (fs : Fs) (location : Location) : Prop :=
  ∃ dir, fs.dirs[location.dir]? = some dir ∧ dir.isParent

theorem Fs.At.leadsTo {fs : Fs} {path : Bytes} {location : Location} (h : fs.At path location)
    (hhosts : fs.Hosts location) : fs.LeadsTo path location := by
  obtain ⟨parent, hsplit, hresolve⟩ := h
  obtain ⟨dir, hdir, hparent⟩ := hhosts
  exact ⟨parent, dir, hsplit, hresolve, hdir, hparent⟩

/-- What the name at the end of a path shows. -/
def Fs.entry (fs : Fs) (path : Bytes) : Slot :=
  match splitParentAndName path with
  | .error _ => .absent
  | .ok (parent, name) =>
    match fs.resolve parent with
    | some d => fs.slot d name
    | none => .absent

theorem Fs.At.entry_eq {fs : Fs} {path : Bytes} {location : Location} (h : fs.At path location) :
    fs.entry path = fs.slot location.dir location.name := by
  obtain ⟨parent, hsplit, hres⟩ := h
  simp only [Fs.entry, hsplit, hres]

theorem Fs.Shows.slot_eq {Hash : Type} {so : Sodium Hash} {fs : Fs} {d : Nat} {name : Bytes}
    {disk : DiskFile Hash} (h : fs.Shows so d name disk) : fs.slot d name = .holds disk.bytes := by
  obtain ⟨i, n, hlook, hn, -, hread, -⟩ := h
  simp only [Fs.slot, hlook, hn]
  rw [hread.bytes_eq]

section Reading

variable {faults : Bool} {R G : Fs → Fs → Prop} {fs : Fs} {Hash : Type} (so : Sodium Hash)
  (host : Host)

/-- Closing a location changes nothing. -/
theorem closeStoreLocation_spec (hG : ∀ fs, G fs fs) :
    (files faults R G).wp closeStoreLocation (fun _ fs' => R fs fs') fs :=
  wp_close hG fun _ _ hrely _ => hrely

/-- **Reading by path**: the content of the file that the name at the path led to, even while
others rename files. -/
theorem readDiskFile_spec {path : Bytes} (hG : ∀ fs, G fs fs) (hrefl : ∀ fs, R fs fs)
    (htrans : ∀ a b c, R a b → R b c → R a c)
    (hsettled : ∀ location fs₁ fs₂ i, R fs fs₁ → fs₁.At path location → R fs fs₂ →
      fs₂.lookup location.dir location.name = some (.file i) → Settled R i fs₂) :
    (files faults R G).wp (readDiskFile so host path)
      (fun r fs' => R fs fs' ∧
        (∀ disk, r = .ok disk → ∃ location fs₁ fs₂, R fs fs₁ ∧ fs₁.At path location ∧ R fs fs₂ ∧
          DiskResult so faults R location.dir location.name fs₂ fs' (.ok disk)) ∧
        ∀ status, r = .error status → ¬status.Committed ∧ (faults = false → Still R fs →
          ∀ location (disk : DiskFile Hash), fs.LeadsTo path location →
            ¬fs.Shows so location.dir location.name disk)) fs := by
  refine Sem.wp_then (openStoreLocation_spec hG hrefl htrans) ?_
  rintro r fs₁ ⟨hrely₁, hresult⟩
  cases r with
  | error status =>
    refine ⟨hrely₁, fun _ h => (by cases h), fun s h => ?_⟩
    cases h
    exact ⟨hresult.1, fun hfalse hstill location _ hleads =>
      absurd (fun fs' h => hstill fs' h ▸ hleads) (hresult.2 hfalse location)⟩
  | ok location =>
  obtain ⟨parent, fs₀, hsplit, hrely₀, hres, -⟩ := hresult
  have hat : fs₀.At path location := ⟨parent, hsplit, hres⟩
  have hsame : Still R fs → ∀ location', fs.LeadsTo path location' → location' = location := by
    intro hstill location' hleads
    rw [hstill fs₀ hrely₀] at hat
    exact hleads.at.unique hat
  refine Sem.wp_then (readDiskFileAt_spec so host hG hrefl htrans fun fs₂ i h₂ hlook =>
    hsettled location fs₀ fs₂ i hrely₀ hat (htrans _ _ _ hrely₁ h₂) hlook) ?_
  rintro r fs₂ ⟨hrely₂, hread⟩
  have h₂ := htrans _ _ _ hrely₁ hrely₂
  cases r with
  | error status =>
    refine wp_close hG fun fs₃ _ hrely₃ _ =>
      ⟨htrans _ _ _ h₂ hrely₃, fun _ h => (by cases h), fun s h => ?_⟩
    cases h
    refine ⟨hread.1, fun hfalse hstill location' disk hleads hshows => ?_⟩
    obtain rfl := hsame hstill location' hleads
    obtain ⟨i, n, hlook, hn, hpriv, hreads, -⟩ := hshows
    rw [hstill fs₁ hrely₁] at hread
    exact hread.2 hfalse hstill i n disk hlook hn hpriv hreads
  | ok disk =>
  refine Sem.wp_then (revalidateStoreLocation_spec hG hrefl htrans) ?_
  rintro status fs₃ ⟨hrely₃, hvalid⟩
  have h₃ := htrans _ _ _ h₂ hrely₃
  refine wp_close hG fun fs₄ _ hrely₄ _ => ?_
  have h₄ := htrans _ _ _ h₃ hrely₄
  split
  · next hne =>
    refine ⟨h₄, fun _ h => (by cases h), fun s h => ?_⟩
    cases h
    refine ⟨by decide, fun hfalse hstill location' _ hleads _ => hne ?_⟩
    obtain rfl := hsame hstill location' hleads
    refine hvalid hfalse (fun fs' h => ?_) ?_
    · rw [hstill fs₂ h₂]
      exact hstill fs' (htrans _ _ _ h₂ h)
    · rw [hstill fs₂ h₂]
      exact hleads
  · refine ⟨h₄, fun disk' h => ?_, fun _ h => by cases h⟩
    cases h
    obtain ⟨a, b, i, n, ha, hlook, hb, hend, hn, hpriv, hreads, hstat⟩ := hread
    exact ⟨location, fs₀, fs₁, hrely₀, hat, hrely₁, a, b, i, n, ha, hlook, hb,
      htrans _ _ _ hend (htrans _ _ _ hrely₃ hrely₄), hn, hpriv, hreads, hstat⟩

/-- Reading a snapshot by its path while nobody else acts. -/
theorem readDiskFile_still {path : Bytes} (hG : ∀ fs, G fs fs) (hrefl : ∀ fs, R fs fs)
    (htrans : ∀ a b c, R a b → R b c → R a c) (hstill : Still R fs) :
    (files faults R G).wp (readDiskFile so host path)
      (fun r fs' => fs' = fs ∧
        (∀ disk, r = .ok disk → ∃ location, fs.At path location ∧
          fs.Shows so location.dir location.name disk) ∧
        ∀ status, r = .error status → ¬status.Committed ∧ (faults = false →
          ∀ location (disk : DiskFile Hash), fs.LeadsTo path location →
            ¬fs.Shows so location.dir location.name disk)) fs := by
  refine Sem.wp_mono (readDiskFile_spec so host hG hrefl htrans fun _ _ fs₂ i _ _ h₂ _ => ?_) ?_
  · intro fs₃ h₃
    rw [hstill fs₃ (htrans _ _ _ h₂ h₃), hstill fs₂ h₂]
  rintro r fs' ⟨hrely, hok, herr⟩
  refine ⟨hstill fs' hrely, fun disk h => ?_, fun status h => ?_⟩
  · obtain ⟨location, fs₁, fs₂, h₁, hat, h₂, a, b, i, n, ha, hlook, hb, -, hn, hpriv, hreads, hstat⟩ :=
      hok disk h
    have ha := htrans _ _ _ h₂ ha
    have hb := htrans _ _ _ ha hb
    rw [hstill fs₁ h₁] at hat
    rw [hstill a ha] at hlook
    rw [hstill b hb] at hn
    exact ⟨location, hat, i, n, hlook, hn, hpriv, hreads, hstat⟩
  · exact ⟨(herr status h).1, fun hfalse => (herr status h).2 hfalse hstill⟩

/-- Reading a snapshot by its path, alone. -/
theorem readDiskFile_alone {path : Bytes} (hG : ∀ fs, G fs fs) :
    (files faults Alone G).wp (readDiskFile so host path)
      (fun r fs' => fs' = fs ∧
        (∀ disk, r = .ok disk → ∃ location, fs.At path location ∧
          fs.Shows so location.dir location.name disk) ∧
        ∀ status, r = .error status → ¬status.Committed ∧ (faults = false →
          ∀ location (disk : DiskFile Hash), fs.LeadsTo path location →
            ¬fs.Shows so location.dir location.name disk)) fs :=
  readDiskFile_still so host hG alone_refl alone_trans fun _ h => h

end Reading

/-! ## Reading while others write -/

section Unsteady

variable {faults : Bool} {R G : Fs → Fs → Prop} {fs : Fs} {Hash : Type} (so : Sodium Hash)
  (host : Host)

/-- What `read` may answer about a file that others may be writing. -/
theorem Fs.Step.readAt_cases {fs fs' : Fs} {node : Node} {offset len : Nat}
    {r : FileRes (.readAt node offset len)} (h : Fs.Step faults fs (.readAt node offset len) r fs') :
    fs' = fs ∧ (∀ got, r = .ok got → got.length ≤ len) ∧ (r = .error .eintr → faults = true) := by
  cases h with
  | acts =>
    cases node with
    | file i =>
      simp only [Fs.act]
      cases fs.inodes[i]? with
      | none => exact ⟨rfl, (fun _ h => by cases h), fun h => by cases h⟩
      | some n =>
        refine ⟨rfl, fun got hgot => ?_, fun h => by cases h⟩
        cases hgot
        exact length_slice_le _ _ _
    | dir d => exact ⟨rfl, (fun _ h => by cases h), fun h => by cases h⟩
    | other => exact ⟨rfl, (fun _ h => by cases h), fun h => by cases h⟩
  | fails _ e hfaults => exact ⟨rfl, (fun _ h => by cases h), fun _ => hfaults⟩
  | readsLess hfaults hnode hne hpre =>
    refine ⟨rfl, fun got hgot => ?_, fun h => by cases h⟩
    cases hgot
    exact hpre.length_le.trans (length_slice_le _ _ _)

theorem retry_readAt_length {node : Node} {offset len : Nat} (hG : ∀ fs, G fs fs) (patience : Nat) :
    ∀ {fs : Fs}, (files faults R G).wp (retry (.readAt node offset len) patience)
      (fun r _ => ∀ got, r = .ok got → got.length ≤ len) fs := by
  have round : ∀ {fs : Fs} {again : FileM (FileRes (.readAt node offset len))},
      (∀ fs₁, faults = true → (files faults R G).wp again
        (fun r _ => ∀ got, r = .ok got → got.length ≤ len) fs₁) →
      (files faults R G).wp (onInterrupt (.readAt node offset len) again)
        (fun r _ => ∀ got, r = .ok got → got.length ≤ len) fs := by
    intro fs again hagain fs₁ _ r fs₂ hstep
    obtain ⟨rfl, hlen, hintr⟩ := Fs.Step.readAt_cases hstep
    refine ⟨hG fs₂, ?_⟩
    cases r with
    | ok got => exact hlen
    | error e =>
      cases e with
      | eintr => exact hagain fs₂ (hintr rfl)
      | _ => exact nofun
  induction patience with
  | zero => exact round fun _ hfaults => hfaults
  | succ patience ih => exact round fun _ _ => ih

theorem readLoop_length {node : Node} (hG : ∀ fs, G fs fs) (passes : Nat) :
    ∀ {offset len : Nat} {fs : Fs}, len ≤ passes →
    (files faults R G).wp (readLoop host node passes offset len)
      (fun r _ => (∀ status, r = .error status → status = .errIo) ∧
        ∀ out, r = .ok out → out.length = len) fs := by
  induction passes with
  | zero =>
    intro offset len fs hlen
    refine ⟨(fun _ h => by cases h), fun out h => ?_⟩
    cases h
    exact (Nat.le_zero.mp hlen).symm
  | succ passes ih =>
    intro offset len fs hlen
    have hio : (∀ status, (.error .errIo : Except PvStatus Bytes) = .error status →
        status = .errIo) ∧ ∀ out, (.error .errIo : Except PvStatus Bytes) = .ok out →
        out.length = len := ⟨fun status h => (Except.error.inj h).symm, fun _ h => by cases h⟩
    rw [readLoop]
    split
    · next hzero =>
      refine ⟨(fun _ h => by cases h), fun out h => ?_⟩
      cases h
      exact hzero.symm
    · refine Sem.wp_then (retry_readAt_length hG host.patience) fun r fs₁ hgot => ?_
      cases r with
      | error e => exact hio
      | ok got =>
        have hle := hgot got rfl
        dsimp only
        split
        · exact hio
        · next hne =>
          have hpos : 0 < got.length := List.length_pos_of_ne_nil hne
          refine Sem.wp_then (ih (by omega)) ?_
          rintro r fs₂ ⟨herr, hrest⟩
          cases r with
          | error status =>
            obtain rfl := herr status rfl
            exact hio
          | ok rest =>
            refine ⟨(fun _ h => by cases h), fun out h => ?_⟩
            cases h
            rw [List.length_append, hrest rest rfl]
            omega

/-- A read by path gives a snapshot, framed as its header says, whatever others do to the file
meanwhile. -/
def ReadsWhole (so : Sodium Hash) (r : Except PvStatus (DiskFile Hash)) : Prop :=
  (∀ disk, r = .ok disk → disk.Reads so disk.bytes) ∧
    ∀ status, r = .error status → ¬status.Committed

variable {so}

theorem closeAnd_readsWhole {status : PvStatus} (hG : ∀ fs, G fs fs) (hbad : ¬status.Committed) :
    (files faults R G).wp (closeAnd status) (fun r _ => ReadsWhole so r) fs := by
  refine wp_close hG fun _ _ _ _ => ⟨nofun, fun s h => ?_⟩
  cases h
  exact hbad

variable (so)

theorem readOpenedFile_whole {node : Node} {st : Stat} (hG : ∀ fs, G fs fs) :
    (files faults R G).wp (readOpenedFile so host node st) (fun r _ => ReadsWhole so r) fs := by
  rw [readOpenedFile]
  split
  · exact closeAnd_readsWhole hG (by decide)
  refine Sem.wp_then (readLoop_length host hG _ (Nat.le_refl _)) ?_
  rintro r fs₁ ⟨herr, hheader⟩
  cases r with
  | error status =>
    obtain rfl := herr status rfl
    exact closeAnd_readsWhole hG (by decide)
  | ok headerData =>
  dsimp only
  split
  · next hbad => exact closeAnd_readsWhole hG (not_or_intro hbad (pvHeaderDecode_ne_durability _))
  next hdecode =>
  split
  · exact closeAnd_readsWhole hG (by decide)
  refine wp_query rfl hG (fun _ _ _ _ => closeAnd_readsWhole hG (by decide)) fun fs₂ _ _ _ => ?_
  refine Sem.wp_then (readLoop_length host hG _ (Nat.le_refl _)) ?_
  rintro r fs₃ ⟨herr, hciphertext⟩
  cases r with
  | error status =>
    obtain rfl := herr status rfl
    exact closeAnd_readsWhole hG (by decide)
  | ok ciphertext =>
  refine Sem.wp_then (retry_readAt_length hG host.patience) fun r fs₄ _ => ?_
  cases r with
  | error e => exact closeAnd_readsWhole hG (by decide)
  | ok extra =>
  dsimp only
  split
  · exact closeAnd_readsWhole hG (by decide)
  refine wp_close hG fun fs₅ r _ _ => ?_
  cases r with
  | error e =>
    refine ⟨(fun _ h => by cases h), fun s h => ?_⟩
    cases h
    decide
  | ok _ =>
    refine ⟨fun disk h => ?_, fun _ h => by cases h⟩
    cases h
    exact ⟨rfl, Prod.ext (not_not.mp hdecode) rfl, hciphertext ciphertext rfl, rfl⟩

/-- **Reading by path**, whatever others do. -/
theorem readDiskFile_whole {path : Bytes} (hG : ∀ fs, G fs fs) (hrefl : ∀ fs, R fs fs)
    (htrans : ∀ a b c, R a b → R b c → R a c) :
    (files faults R G).wp (readDiskFile so host path) (fun r _ => ReadsWhole so r) fs := by
  refine Sem.wp_then (openStoreLocation_spec hG hrefl htrans) ?_
  rintro r fs₁ ⟨-, hresult⟩
  cases r with
  | error status =>
    refine ⟨nofun, fun s h => ?_⟩
    cases h
    exact hresult.1
  | ok location =>
  have hopened : (files faults R G).wp (readDiskFileAt so host location.dir location.name)
      (fun r _ => ReadsWhole so r) fs₁ := by
    refine Sem.wp_then (openPrivateSnapshotAt_spec hG hrefl htrans) ?_
    rintro r fs₂ ⟨-, hopen⟩
    cases r with
    | error status =>
      refine ⟨nofun, fun s h => ?_⟩
      cases h
      rw [hopen.1]
      decide
    | ok opened => exact readOpenedFile_whole so host hG
  refine Sem.wp_then hopened fun r fs₂ hread => ?_
  cases r with
  | error status => exact wp_close hG fun _ _ _ _ => ⟨nofun, fun s h => hread.2 s h⟩
  | ok disk =>
    refine Sem.wp_then (revalidateStoreLocation_spec hG hrefl htrans) fun status fs₃ _ => ?_
    refine wp_close hG fun _ _ _ _ => ?_
    split
    · refine ⟨nofun, fun s h => ?_⟩
      cases h
      decide
    · exact hread

end Unsteady

/-! ## Opening -/

/-- `pv_cbor_decode`, which always returns. -/
def cborDecode {Hash : Type} (env : DecodeEnv) (input : Bytes) (vault : Vault Hash) :
    PvStatus × Vault Hash :=
  (pvCborDecode env input vault).get (pvCborDecode_isSome env input vault)

/-- The memory and the environment for decrypting and decoding a snapshot. -/
structure OpenEnv where
  body : BodyMemory
  arena : SecureAlloc
  vmk : SecureAlloc
  decode : DecodeEnv

/-- The same, and the memory for unwrapping the master key. -/
structure UnlockEnv extends OpenEnv where
  /-- the buffer of the master key -/
  buffer : SecureAlloc
  key : KeyMemory

section Store

variable {Hash : Type} (so : Sodium Hash) (host : Host)
variable {env : UnlockEnv} {path credential : Bytes} {recovery : Bool}

/-- The branch of `open_common` that unwraps the master key. -/
def unlockVmk (env : UnlockEnv) (header : FileHeader) (credential : Bytes) (recovery : Bool) :
    PvStatus × Block pvWrapKeyBytes :=
  if recovery = true then
    if credential.length ≠ pvRecoveryKeyBytes then (.errAuth, Block.zero _)
    else pvCryptoUnlockRecovery so header (Block.ofBytes _ credential) env.key (Block.zero _)
  else
    pvCryptoUnlockPassword so header credential env.key (Block.zero _)

/-- The part of `open_common` after the file was read. An error leaves the caller's vault
zeroed and the caller's header as it was. -/
def openDisk (env : UnlockEnv) (path credential : Bytes) (recovery : Bool) (disk : DiskFile Hash) :
    Except PvStatus (Vault Hash × FileHeader) :=
  if env.buffer ≠ .allocated then
    .error .errSecureMemory
  else
    match unlockVmk so env disk.header credential recovery with
    | (.ok, vmk) =>
      match pvCryptoDecryptBody so disk.header vmk disk.ciphertext env.body with
      | (.ok, plaintext) =>
        match pvModelInit so.zeroHash path env.arena env.vmk with
        | .error status => .error status
        | .ok vault =>
          match cborDecode env.decode plaintext
              { vault with vaultId := disk.header.vaultId, vmk := vmk, sourceHash := disk.hash } with
          | (.ok, vault) =>
            if vault.vaultId ≠ disk.header.vaultId then .error .errAuth else .ok (vault, disk.header)
          | (status, _) => .error status
      | (status, _) => .error status
    | (status, _) => .error status

/-- `open_common`. -/
def openCommon (env : UnlockEnv) (path credential : Bytes) (recovery : Bool) :
    FileM (Except PvStatus (Vault Hash × FileHeader)) := do
  match ← readDiskFile so host path with
  | .error status => return .error status
  | .ok disk => return openDisk so env path credential recovery disk

/-- `pv_store_open_password`. -/
def pvStoreOpenPassword (env : UnlockEnv) (path password : Bytes) :
    FileM (Except PvStatus (Vault Hash × FileHeader)) :=
  openCommon so host env path password false

/-- `pv_store_open_recovery`. -/
def pvStoreOpenRecovery (env : UnlockEnv) (path : Bytes) (recoveryKey : Block pvRecoveryKeyBytes) :
    FileM (Except PvStatus (Vault Hash × FileHeader)) :=
  openCommon so host env path recoveryKey.bytes true

/-- The keyslot of the header unwraps to the master key under the credential. -/
def Unwraps (header : FileHeader) (credential : Bytes) (recovery : Bool)
    (vmk : Block pvWrapKeyBytes) : Prop :=
  ∃ env : UnlockEnv, unlockVmk so env header credential recovery = (.ok, vmk)

variable {so host}

/-- **What a successful open did**: a keyslot of the file gave the master key, the body
decrypted under it, and the payload decoded. -/
theorem openDisk_ok {disk : DiskFile Hash} {vault : Vault Hash} {header : FileHeader}
    (h : openDisk so env path credential recovery disk = .ok (vault, header)) :
    header = disk.header ∧ ∃ vmk plaintext start,
      unlockVmk so env disk.header credential recovery = (.ok, vmk) ∧
      pvCryptoDecryptBody so disk.header vmk disk.ciphertext env.body = (.ok, plaintext) ∧
      pvModelInit so.zeroHash path env.arena env.vmk = .ok start ∧
      cborDecode env.decode plaintext
        { start with vaultId := disk.header.vaultId, vmk := vmk, sourceHash := disk.hash } =
          (.ok, vault) := by
  rw [openDisk] at h
  split at h
  · cases h
  split at h
  · next vmk hunlock =>
    split at h
    · next plaintext hdecrypt =>
      split at h
      · cases h
      · next start hinit =>
        split at h
        · next decoded hdecode =>
          split at h
          · cases h
          · cases h
            exact ⟨rfl, vmk, plaintext, start, hunlock, hdecrypt, hinit, hdecode⟩
        · cases h
    · cases h
  · cases h

theorem openCommon_alone {faults : Bool} {G : Fs → Fs → Prop} {fs : Fs} (hG : ∀ fs, G fs fs) :
    (files faults Alone G).wp (openCommon so host env path credential recovery)
      (fun r fs' => fs' = fs ∧ ∀ opened, r = .ok opened → ∃ location disk, fs.At path location ∧
        fs.Shows so location.dir location.name disk ∧
        openDisk so env path credential recovery disk = .ok opened) fs := by
  refine Sem.wp_then (readDiskFile_alone so host hG) ?_
  rintro r fs₁ ⟨rfl, hok, -⟩
  cases r with
  | error status => exact ⟨rfl, fun _ h => by cases h⟩
  | ok disk =>
    obtain ⟨location, hat, hshows⟩ := hok disk rfl
    exact ⟨rfl, fun opened h => ⟨location, disk, hat, hshows, h⟩⟩

/-- When no call fails, what the file shows is opened. -/
theorem openCommon_shown {G : Fs → Fs → Prop} {fs : Fs} {location : Location} {shown : DiskFile Hash}
    (hG : ∀ fs, G fs fs)
    (hleads : fs.LeadsTo path location) (hshown : fs.Shows so location.dir location.name shown) :
    (files false Alone G).wp (openCommon so host env path credential recovery)
      (fun r fs' => fs' = fs ∧ ∃ disk, fs.Shows so location.dir location.name disk ∧
        r = openDisk so env path credential recovery disk) fs := by
  refine Sem.wp_then (readDiskFile_alone so host hG) ?_
  rintro r fs₁ ⟨rfl, hok, herror⟩
  cases r with
  | error status => exact absurd hshown ((herror status rfl).2 rfl _ _ hleads)
  | ok disk =>
    obtain ⟨place, hat, hshows⟩ := hok disk rfl
    rw [hat.unique hleads.at] at hshows
    exact ⟨rfl, disk, hshows, rfl⟩

end Store

end PVault
