import Mathlib.Data.List.Sort
import PVault.Sealed

/-!
# What pruning removes

`prune_automatic_backups` lists a directory, validates every automatic backup of the vault in
it, sorts those that are not pinned by generation and removes the surplus, oldest first.

* `pruneAutomaticBackups_spec` — whatever fails, it removes nothing but automatic backups of
  the vault that are older than the given generation.
* `prune_removes_surplus` — what it removes is a front part of the surplus, all of it if it
  returns `PV_OK`, and nothing if a single backup of the vault is not in order.
-/

namespace PVault

open Binary Conc

/-! ## The surplus -/

/-- The names in a directory. -/
def Fs.names (fs : Fs) (d : Nat) : List Bytes :=
  (fs.dirs[d]?.map fun dir => dir.entries.keys).getD []

/-- The mode of the file a name is bound to. -/
def Fs.modeAt (fs : Fs) (d : Nat) (name : Bytes) : Option Nat :=
  match fs.lookup d name with
  | some (.file i) => fs.inodes[i]?.map Inode.mode
  | _ => none

/-- The generation of a name that retention counts: an automatic backup of the vault, up to
the given generation, with mode `0600`. -/
def PruneTask.counted (task : PruneTask) (fs : Fs) (name : Bytes) : Option Nat :=
  match parseAutomaticBackupName name with
  | some (id, generation) =>
    if id = task.vaultId ∧ generation ≤ task.maximumGeneration ∧
        fs.modeAt task.dir name = some 0o600 then some generation else none
  | none => none

/-- The generations that retention counts, oldest first. -/
def PruneTask.oldestFirst (task : PruneTask) (fs : Fs) : List Nat :=
  ((fs.names task.dir).filterMap (task.counted fs)).mergeSort

/-- The names of the surplus, oldest first. -/
def PruneTask.surplus (task : PruneTask) (fs : Fs) : List Bytes :=
  ((task.oldestFirst fs).take ((task.oldestFirst fs).length - task.retention)).map
    (autoBackupName task.vaultId)

/-- Exactly the given names were removed from the directory, and nothing else was changed. -/
structure Fs.Removed (d : Nat) (names : List Bytes) (a b : Fs) : Prop where
  pruned : Fs.Pruned d (· ∈ names) a b
  gone : ∀ name ∈ names, b.lookup d name = none

theorem Fs.Removed.none (d : Nat) (fs : Fs) : Fs.Removed d [] fs fs :=
  ⟨Fs.Pruned.refl fs, nofun⟩

theorem Fs.Removed.cons {d : Nat} {name : Bytes} {names : List Bytes} {a b c : Fs}
    (h : Fs.Removed d [name] a b) (h' : Fs.Removed d names b c) :
    Fs.Removed d (name :: names) a c := by
  refine ⟨(h.pruned.mono ?_).trans (h'.pruned.mono ?_), fun other hother => ?_⟩
  · exact fun x hx => List.mem_cons.mpr (.inl (List.mem_singleton.mp hx))
  · exact fun x hx => List.mem_cons_of_mem _ hx
  · rcases List.mem_cons.mp hother with rfl | hother
    · have hb := h.gone other (List.mem_singleton.mpr rfl)
      rcases h'.pruned.lookup_cases other with hc | ⟨hc, -⟩
      · exact hc.trans hb
      · exact hc
    · exact h'.gone other hother

section Prune

variable {Hash : Type} (so : Sodium Hash) (host : Host) {task : PruneTask} {faults : Bool}
  {G : Fs → Fs → Prop} {fs : Fs}
variable {disk disk' : DiskFile Hash} {d generation : Nat} {name : Bytes} {c : Candidate}
  {names : List Bytes} {found : List Candidate}

/-- The name, if it is one of an automatic backup of the vault, shows a private snapshot that
authenticates with the generation of the name. -/
def PruneTask.InOrder (task : PruneTask) (fs : Fs) (name : Bytes) : Prop :=
  ∀ generation, parseAutomaticBackupName name = some (task.vaultId, generation) →
    ∃ disk, fs.Shows so task.dir name disk ∧
      authenticateBackup so (task.env name) task.vaultId task.vmk generation disk = .ok

/-! ## Validation and listing -/

/-- A file is a snapshot in one way only. -/
theorem DiskFile.Reads.parts_eq {so : Sodium Hash} {data : Bytes} (h : disk.Reads so data)
    (h' : disk'.Reads so data) :
    disk.headerBytes = disk'.headerBytes ∧ disk.ciphertext = disk'.ciphertext := by
  have hheader : disk.headerBytes = disk'.headerBytes :=
    h.headerBytes_eq.symm.trans h'.headerBytes_eq
  have hbytes := h.bytes_eq.trans h'.bytes_eq.symm
  rw [DiskFile.bytes, DiskFile.bytes, hheader] at hbytes
  exact ⟨hheader, List.append_cancel_left hbytes⟩

theorem DiskFile.Reads.unique {so : Sodium Hash} {data : Bytes} (h : disk.Reads so data)
    (h' : disk'.Reads so data) (hstat : disk.stat = disk'.stat) :
    disk = disk' := by
  obtain ⟨hheader, hrest⟩ := h.parts_eq h'
  have hdecoded := h.decode_eq.symm.trans ((congrArg pvHeaderDecode hheader).trans h'.decode_eq)
  have hhash := h.hash_eq.trans h'.hash_eq.symm
  cases disk
  cases disk'
  simp only [Prod.mk.injEq, true_and] at hheader hdecoded hrest hhash hstat
  rw [hheader, hdecoded, hrest, hhash, hstat]

theorem Fs.Shows.unique {so : Sodium Hash} (h : fs.Shows so d name disk)
    (h' : fs.Shows so d name disk') : disk = disk' := by
  obtain ⟨i, n, hlook, hn, -, hread, hstat⟩ := h
  obtain ⟨i', n', hlook', hn', -, hread', hstat'⟩ := h'
  rw [hlook] at hlook'
  cases hlook'
  rw [hn] at hn'
  cases hn'
  exact hread.unique hread' (hstat.trans hstat'.symm)

/-- Validation accepts exactly the entries that are in order, unless a call fails. -/
theorem validateAutomaticBackupEntry_spec {env : OpenEnv} {vaultId : Block pvVaultIdBytes}
    {vmk : Block pvWrapKeyBytes} (hG : ∀ fs, G fs fs) :
    (files faults Alone G).wp
      (validateAutomaticBackupEntry so host env d name vaultId vmk generation)
      (fun r fs' => fs' = fs ∧
        (∀ st, r = .ok st → ∃ disk, fs.Shows so d name disk ∧
          authenticateBackup so env vaultId vmk generation disk = .ok ∧ st = disk.stat) ∧
        ∀ status, r = .error status → status ≠ .ok ∧ (faults = false →
          ¬∃ disk, fs.Shows so d name disk ∧
            authenticateBackup so env vaultId vmk generation disk = .ok)) fs := by
  refine Sem.wp_then (readDiskFileAt_alone so host hG) ?_
  rintro r fs₁ ⟨rfl, hok, herr⟩
  cases r with
  | error status =>
    obtain ⟨hne, hnone⟩ := herr status rfl
    refine ⟨rfl, nofun, fun status' h => ?_⟩
    cases h
    exact ⟨PvStatus.ne_ok hne, fun hfalse ⟨disk, hshows, _⟩ => hnone hfalse disk hshows⟩
  | ok disk =>
    have hshows := hok disk rfl
    dsimp only
    split
    · next hauth =>
      refine ⟨rfl, fun st h => ?_, nofun⟩
      cases h
      exact ⟨disk, hshows, hauth, rfl⟩
    · next hauth =>
      refine ⟨rfl, nofun, fun status h => ?_⟩
      cases h
      refine ⟨hauth, fun _ ⟨disk', hshows', hauth'⟩ => hauth ?_⟩
      rwa [hshows.unique hshows']

/-- The candidate that a name stands for. -/
def PruneTask.candidate (task : PruneTask) (fs : Fs) (name : Bytes) : Option Candidate :=
  (task.counted fs name).bind fun generation =>
    (fs.lookup task.dir name).map fun node => ⟨name, generation, node⟩

theorem Fs.Shows.statAt {so : Sodium Hash} (h : fs.Shows so d name disk) :
    (fs.act (.statAt d name)).1 = .ok disk.stat ∧ disk.stat.isPrivate ∧
      fs.lookup d name = some disk.stat.node ∧ fs.modeAt d name = some disk.stat.mode := by
  obtain ⟨i, n, hlook, hn, hpriv, -, hstat⟩ := h
  rw [hstat]
  refine ⟨?_, Inode.stat_isPrivate.mpr hpriv, hlook, ?_⟩
  · simp only [Fs.act, hlook, Fs.statOf, hn]
  · simp only [Fs.modeAt, hlook, hn]
    rfl

/-- A backup that is in order is a candidate unless it is pinned or too young. -/
theorem PruneTask.candidate_of_shows {so : Sodium Hash}
    (hparse : parseAutomaticBackupName name = some (task.vaultId, generation))
    (h : fs.Shows so task.dir name disk) :
    task.candidate fs name =
      if disk.stat.mode = 0o400 ∨ generation > task.maximumGeneration then none
      else some ⟨name, generation, disk.stat.node⟩ := by
  obtain ⟨-, hpriv, hlook, hmode⟩ := h.statAt
  rw [PruneTask.candidate, PruneTask.counted, hparse, hlook]
  dsimp only
  rw [hmode]
  rcases hpriv.2.2.2 with hpinned | hplain
  · rw [if_neg (by rw [hpinned]; exact fun hall => nomatch hall.2.2), if_pos (.inl hpinned)]
    rfl
  · by_cases hle : generation ≤ task.maximumGeneration
    · rw [if_pos ⟨rfl, hle, congrArg some hplain⟩, if_neg (by rw [hplain]; omega)]
      rfl
    · rw [if_neg fun hall => hle hall.2.1, if_pos (.inr (Nat.not_le.mp hle))]
      rfl

/-- The array of candidates can grow as long as its size fits in `size_t`. -/
theorem growCandidates_eq {capacity : Nat} (h : capacity < 2 ^ 56) :
    ∃ next bytes, growCandidates capacity = some (next, bytes) := by
  have hmul : ∀ next < 2 ^ 57, ∃ bytes, pvSizeMul next 96 = some bytes := by
    intro next hnext
    have hmax := sizeMax_eq
    exact ⟨next * 96, pvSizeMul_eq_some.mpr ⟨by omega, rfl⟩⟩
  rw [growCandidates]
  split_ifs with hzero hsmall hsmall
  · omega
  · obtain ⟨bytes, hbytes⟩ := hmul 32 (by decide)
    exact ⟨32, bytes, by rw [hbytes]; rfl⟩
  · omega
  · obtain ⟨bytes, hbytes⟩ := hmul (capacity * 2 % 2 ^ 64) (by omega)
    exact ⟨_, bytes, by rw [hbytes]; rfl⟩

/-- What listing the rest of a directory may have answered. -/
structure ScanResult (task : PruneTask) (faults : Bool) (fs : Fs) (names : List Bytes)
    (found : List Candidate) (r : Except PvStatus (List Candidate)) : Prop where
  ok : ∀ found', r = .ok found' → (∀ name ∈ names, task.InOrder so fs name) ∧
    found' = found ++ names.filterMap (task.candidate fs)
  error : ∀ status, r = .error status → status ≠ .ok ∧
    (faults = false → found.length + names.length < 2 ^ 56 → ∃ name ∈ names, ¬task.InOrder so fs name)

/-- **Listing** accepts the directory exactly if all backups of the vault in it are in order,
and then finds the candidates. -/
theorem scanBackups_spec (hG : ∀ fs, G fs fs) (names : List Bytes) :
    ∀ (capacity : Nat) (found : List Candidate),
    (files faults Alone G).wp (scanBackups so host task names capacity found)
      (fun r fs' => fs' = fs ∧ ScanResult so task faults fs names found r) fs := by
  induction names with
  | nil =>
    intro capacity found
    refine ⟨rfl, fun found' h => ?_, nofun⟩
    cases h
    exact ⟨nofun, (List.append_nil _).symm⟩
  | cons name rest ih =>
    intro capacity found
    -- An entry that is passed over.
    have hskip : task.InOrder so fs name → task.candidate fs name = none → ∀ capacity,
        (files faults Alone G).wp (scanBackups so host task rest capacity found)
          (fun r fs' => fs' = fs ∧ ScanResult so task faults fs (name :: rest) found r) fs := by
      intro horder hnone capacity
      refine Sem.wp_mono (ih capacity found) ?_
      rintro r fs' ⟨hfs, hok, herr⟩
      refine ⟨hfs, fun found' h => ?_, fun status h => ⟨(herr status h).1, fun hfalse hlen => ?_⟩⟩
      · obtain ⟨hall, heq⟩ := hok found' h
        rw [List.filterMap_cons_none hnone]
        exact ⟨List.forall_mem_cons.mpr ⟨horder, hall⟩, heq⟩
      · rw [List.length_cons] at hlen
        obtain ⟨other, hmem, hbad⟩ := (herr status h).2 hfalse (by omega)
        exact ⟨other, List.mem_cons_of_mem _ hmem, hbad⟩
    -- An entry that ends the listing.
    have hstop : ∀ status, status ≠ .ok → (faults = false → ¬task.InOrder so fs name) →
        ScanResult so task faults fs (name :: rest) found (.error status) := by
      refine fun status hne hbad => ⟨nofun, fun status' h => ?_⟩
      cases h
      exact ⟨hne, fun hfalse _ => ⟨name, List.mem_cons_self .., hbad hfalse⟩⟩
    rw [scanBackups]
    split
    · next hparse =>
      refine hskip (fun generation h => ?_) ?_ capacity
      · rw [hparse] at h
        cases h
      · rw [PruneTask.candidate, PruneTask.counted, hparse]
        rfl
    next id generation hparse =>
    split
    · next hid =>
      refine hskip (fun generation' h => ?_) ?_ capacity
      · rw [hparse] at h
        cases h
        exact absurd rfl hid
      · rw [PruneTask.candidate, PruneTask.counted, hparse]
        dsimp only
        rw [if_neg fun h => hid h.1]
        rfl
    next hid =>
    obtain rfl : id = task.vaultId := not_not.mp hid
    refine wp_query rfl hG (fun fs₁ e hrely he => ?_) fun fs₁ listed hrely hlisted => ?_
    · obtain rfl : fs₁ = fs := hrely
      refine ⟨rfl, hstop _ nofun fun hfalse horder => ?_⟩
      obtain ⟨disk, hshows, -⟩ := horder generation hparse
      have hact := he hfalse
      rw [hshows.statAt.1] at hact
      cases hact
    obtain rfl : fs₁ = fs := hrely
    dsimp only
    split
    · next hforeign =>
      refine ⟨rfl, hstop _ nofun fun _ horder => hforeign ?_⟩
      obtain ⟨disk, hshows, -⟩ := horder generation hparse
      rw [hshows.statAt.1] at hlisted
      cases hlisted
      exact hshows.statAt.2.1
    refine Sem.wp_then (validateAutomaticBackupEntry_spec so host hG) ?_
    rintro r fs₂ ⟨rfl, hvalid, hinvalid⟩
    cases r with
    | error status =>
      obtain ⟨hne, hbad⟩ := hinvalid status rfl
      exact ⟨rfl, hstop status hne fun hfalse horder => hbad hfalse (horder generation hparse)⟩
    | ok opened =>
    obtain ⟨disk, hshows, hauth, rfl⟩ := hvalid opened rfl
    rw [hshows.statAt.1] at hlisted
    cases hlisted
    have horder : task.InOrder so fs₂ name := by
      intro generation' h
      rw [hparse] at h
      cases h
      exact ⟨disk, hshows, hauth⟩
    have hcandidate := PruneTask.candidate_of_shows hparse hshows
    dsimp only
    rw [if_neg fun hne => hne rfl]
    split
    · next hkeep => exact hskip horder (hcandidate.trans (if_pos hkeep)) capacity
    next hkeep =>
    rw [if_neg hkeep] at hcandidate
    -- An entry that is kept.
    have htake : ∀ capacity,
        (files faults Alone G).wp
          (scanBackups so host task rest capacity (found ++ [⟨name, generation, disk.stat.node⟩]))
          (fun r fs' => fs' = fs₂ ∧ ScanResult so task faults fs₂ (name :: rest) found r) fs₂ := by
      intro capacity
      refine Sem.wp_mono (ih capacity _) ?_
      rintro r fs' ⟨hfs, hok, herr⟩
      refine ⟨hfs, fun found' h => ?_, fun status h => ⟨(herr status h).1, fun hfalse hlen => ?_⟩⟩
      · obtain ⟨hall, heq⟩ := hok found' h
        rw [List.filterMap_cons_some hcandidate, heq, List.append_assoc]
        exact ⟨List.forall_mem_cons.mpr ⟨horder, hall⟩, rfl⟩
      · rw [List.length_cons] at hlen
        obtain ⟨other, hmem, hbad⟩ := (herr status h).2 hfalse
          (by rw [List.length_append, List.length_singleton]; omega)
        exact ⟨other, List.mem_cons_of_mem _ hmem, hbad⟩
    -- Without faults the array grows.
    have hroom : ∀ status, status ≠ .ok → (faults = false → ¬found.length < 2 ^ 56) →
        ScanResult so task faults fs₂ (name :: rest) found (.error status) := by
      refine fun status hne hfull => ⟨nofun, fun status' h => ?_⟩
      cases h
      exact ⟨hne, fun hfalse hlen => absurd (by omega) (hfull hfalse)⟩
    split
    · next hfull =>
      split
      · next hgrow =>
        refine ⟨rfl, hroom _ nofun fun _ hlt => ?_⟩
        obtain ⟨next, bytes, heq⟩ := growCandidates_eq (hfull ▸ hlt)
        rw [hgrow] at heq
        cases heq
      · refine wp_query rfl hG (fun fs₃ e hrely he => ?_) fun fs₃ _ hrely _ => ?_
        · refine ⟨hrely, hroom _ nofun fun hfalse _ => ?_⟩
          cases he hfalse
        · obtain rfl : fs₃ = fs₂ := hrely
          exact htake _
    · exact htake capacity

/-! ## The surplus is removed -/

/-- A private regular file is what a name that passed `fstatat` is bound to. -/
theorem Fs.act_statAt_isPrivate {st : Stat} (h : (fs.act (.statAt d name)).1 = .ok st)
    (hst : st.isPrivate) :
    ∃ i n, fs.lookup d name = some (.file i) ∧ fs.inodes[i]? = some n ∧ st = n.stat i ∧
      n.isPrivate := by
  simp only [Fs.act] at h
  split at h
  · next node hlook =>
    obtain ⟨i, n, rfl, hn, hstat, hpriv⟩ := Fs.statOf_isPrivate h hst
    exact ⟨i, n, hlook, hn, hstat, hpriv⟩
  · cases h

/-- A candidate that is still the private file that was found. -/
def Fs.Holds (fs : Fs) (d : Nat) (c : Candidate) : Prop :=
  ∃ i n, c.node = .file i ∧ fs.lookup d c.name = some (.file i) ∧ fs.inodes[i]? = some n ∧
    n.isPrivate

theorem recheckCandidate_spec (hG : ∀ fs, G fs fs) :
    (files faults Alone G).wp (recheckCandidate d c)
      (fun r fs' => fs' = fs ∧ (r = true → fs.Holds d c) ∧
        (faults = false → fs.Holds d c → r = true)) fs := by
  have hstat : fs.Holds d c → ∃ st, (fs.act (.statAt d c.name)).1 = .ok st ∧ st.isPrivate ∧
      st.node = c.node := by
    rintro ⟨i, n, hnode, hlook, hn, hpriv⟩
    refine ⟨n.stat i, ?_, Inode.stat_isPrivate.mpr hpriv, hnode.symm⟩
    simp only [Fs.act, hlook, Fs.statOf, hn]
  refine wp_query rfl hG (fun fs₁ e hrely he => ⟨hrely, (fun h => by cases h), fun hfalse hholds => ?_⟩)
    fun fs₁ st hrely hact => ?_
  · obtain rfl : fs₁ = fs := hrely
    obtain ⟨st, hok, -⟩ := hstat hholds
    have hbad := he hfalse
    rw [hok] at hbad
    cases hbad
  · obtain rfl : fs₁ = fs := hrely
    refine ⟨rfl, fun h => ?_, fun _ hholds => ?_⟩
    · obtain ⟨hpriv, hnode⟩ := of_decide_eq_true h
      obtain ⟨i, n, hlook, hn, rfl, hpriv'⟩ := Fs.act_statAt_isPrivate hact hpriv
      exact ⟨i, n, hnode.symm, hlook, hn, hpriv'⟩
    · obtain ⟨st', hok, hst'⟩ := hstat hholds
      rw [hok] at hact
      cases hact
      exact decide_eq_true hst'

theorem recheckAll_spec (hG : ∀ fs, G fs fs) (surplus : List Candidate) :
    (files faults Alone G).wp (recheckAll d surplus)
      (fun status fs' => fs' = fs ∧
        (faults = false → (∀ c ∈ surplus, fs.Holds d c) → status = .ok)) fs := by
  induction surplus with
  | nil => exact ⟨rfl, fun _ _ => rfl⟩
  | cons c rest ih =>
    refine Sem.wp_then (recheckCandidate_spec hG) ?_
    rintro r fs₁ ⟨rfl, -, hholds⟩
    cases r with
    | true =>
      refine Sem.wp_mono ih ?_
      rintro status fs₂ ⟨rfl, hok⟩
      exact ⟨rfl, fun hfalse hall => hok hfalse fun c' hc' => hall c' (List.mem_cons_of_mem _ hc')⟩
    | false =>
      exact ⟨rfl, fun hfalse hall => absurd (hholds hfalse (hall c (List.mem_cons_self ..))) nofun⟩

/-- Removing one file leaves the other candidates what they were. -/
theorem Fs.Holds.unlink {i : Nat} (h : fs.Holds d c) (hname : c.name ≠ name)
    (hnode : c.node ≠ .file i) :
    ((fs.dropLink (some (.file i))).unbind d name).Holds d c := by
  obtain ⟨j, n, hj, hlook, hn, hpriv⟩ := h
  refine ⟨j, n, hj, ?_, ?_, hpriv⟩
  · rw [Fs.lookup_unbind, if_neg fun hbad => hname hbad.2]
    exact hlook
  · have hij : some (Node.file i) ≠ some (.file j) := by
      rintro heq
      cases heq
      exact hnode hj
    show (fs.dropLink (some (.file i))).inodes[j]? = some n
    rw [Fs.inodes_dropLink, hn, Option.map_some, if_neg hij]

/-- What removing the surplus may have done: a front part is gone. -/
structure RemoveResult (faults : Bool) (d : Nat) (surplus : List Candidate) (fs fs' : Fs)
    (status : PvStatus) : Prop where
  removed : ∃ k, Fs.Removed d ((surplus.take k).map Candidate.name) fs fs' ∧
    (status = .ok → surplus.length ≤ k)
  ok : faults = false → (∀ c ∈ surplus, fs.Holds d c) →
    surplus.Pairwise (fun a b => a.name ≠ b.name ∧ a.node ≠ b.node) → status = .ok

/-- **The second pass** removes the surplus from the front on. -/
theorem removeAll_spec {P : Bytes → Prop} (hpruned : ∀ a b, Fs.Pruned d P a b → G a b)
    (surplus : List Candidate) : ∀ {fs : Fs} (deleted : Bool), (∀ c ∈ surplus, P c.name) →
    (files faults Alone G).wp (removeAll d surplus deleted)
      (fun r fs' => RemoveResult faults d surplus fs fs' r.1) fs := by
  have hG : ∀ fs, G fs fs := fun fs => hpruned fs fs (Fs.Pruned.refl fs)
  induction surplus with
  | nil => exact fun _ _ => ⟨⟨0, Fs.Removed.none d _, fun _ => Nat.le_refl 0⟩, fun _ _ _ => rfl⟩
  | cons c rest ih =>
    intro fs deleted hall
    have hstop : (faults = false → ¬fs.Holds d c) →
        RemoveResult faults d (c :: rest) fs fs .errIo := fun hbad =>
      ⟨⟨0, Fs.Removed.none d fs, nofun⟩,
        fun hfalse hholds _ => absurd (hholds c (List.mem_cons_self ..)) (hbad hfalse)⟩
    refine Sem.wp_then (recheckCandidate_spec hG) ?_
    rintro r fs₁ ⟨rfl, hholds, hcheck⟩
    cases r with
    | false => exact hstop fun hfalse h => absurd (hcheck hfalse h) nofun
    | true =>
      obtain ⟨i, n, hnode, hlook, -⟩ := hholds rfl
      have hact : fs₁.act (.unlinkAt d c.name) =
          (.ok (), (fs₁.dropLink (some (.file i))).unbind d c.name) := by
        simp only [Fs.act, hlook]
      refine wp_plain rfl (fun fs₂ e hrely he => ?_) fun fs₂ _ hrely _ => ?_
      · obtain rfl : fs₂ = fs₁ := hrely
        refine ⟨hG fs₂, hstop fun hfalse => ?_⟩
        have hbad := he hfalse
        rw [hact] at hbad
        cases hbad
      · obtain rfl : fs₂ = fs₁ := hrely
        rw [hact]
        have hone : Fs.Removed d [c.name] fs₂
            ((fs₂.dropLink (some (.file i))).unbind d c.name) := by
          refine ⟨Fs.pruned_unlink (List.mem_singleton.mpr rfl) hlook, fun name hname => ?_⟩
          rw [List.mem_singleton.mp hname, Fs.lookup_unbind, if_pos ⟨rfl, rfl⟩]
        refine ⟨hpruned _ _ (Fs.pruned_unlink (hall c (List.mem_cons_self ..)) hlook), ?_⟩
        refine Sem.wp_mono (ih true fun c' hc' => hall c' (List.mem_cons_of_mem _ hc')) ?_
        rintro ⟨status, deleted'⟩ fs₃ ⟨⟨k, hremoved, hfull⟩, hok⟩
        refine ⟨⟨k + 1, ?_, fun h => Nat.succ_le_succ (hfull h)⟩, fun hfalse hholds hdistinct => ?_⟩
        · rw [List.take_succ_cons, List.map_cons]
          exact hone.cons hremoved
        · obtain ⟨hne, hrest⟩ := List.pairwise_cons.mp hdistinct
          refine hok hfalse (fun c' hc' => ?_) hrest
          refine (hholds c' (List.mem_cons_of_mem _ hc')).unlink (hne c' hc').1.symm ?_
          rw [← hnode]
          exact (hne c' hc').2.symm

theorem finishPruning_spec {status : PvStatus} {deleted : Bool} (hG : ∀ fs, G fs fs) :
    (files faults Alone G).wp (finishPruning d status deleted)
      (fun s fs' => fs' = fs ∧ (s = .ok → status = .ok) ∧
        (faults = false → status = .ok → s = .ok)) fs := by
  have hclosing : ∀ {t}, (t = .ok → status = .ok) → (faults = false → t = status) →
      (files faults Alone G).wp (closing t)
        (fun s fs' => fs' = fs ∧ (s = .ok → status = .ok) ∧
          (faults = false → status = .ok → s = .ok)) fs := by
    intro t ht hfalse
    refine Sem.wp_mono (closing_spec hG) ?_
    rintro s fs' ⟨rfl, rfl | ⟨-, rfl, hfaults⟩⟩
    · exact ⟨rfl, ht, fun hf hok => (hfalse hf).trans hok⟩
    · refine ⟨rfl, nofun, fun hf => ?_⟩
      rw [hfaults] at hf
      cases hf
  rw [finishPruning]
  split
  · refine wp_query rfl hG (fun fs₁ e hrely he => ?_) fun fs₁ _ hrely _ => ?_
    · obtain rfl : fs₁ = fs := hrely
      refine hclosing (fun h => ?_) fun hfalse => by cases he hfalse
      split_ifs at h with hok
      exact h
    · obtain rfl : fs₁ = fs := hrely
      exact hclosing id fun _ => rfl
  · exact hclosing id fun _ => rfl

/-! ## The order of the candidates -/

theorem PruneTask.counted_some (h : task.counted fs name = some generation) :
    parseAutomaticBackupName name = some (task.vaultId, generation) ∧
      generation ≤ task.maximumGeneration ∧ fs.modeAt task.dir name = some 0o600 := by
  rw [PruneTask.counted] at h
  split at h
  · next id g hparse =>
    split_ifs at h with hall
    cases h
    obtain ⟨rfl, hle, hmode⟩ := hall
    exact ⟨hparse, hle, hmode⟩
  · cases h

theorem PruneTask.candidate_some (h : task.candidate fs name = some c) :
    c.name = name ∧ task.counted fs name = some c.generation ∧
      fs.lookup task.dir name = some c.node := by
  obtain ⟨generation, hcounted, hmap⟩ := Option.bind_eq_some_iff.mp h
  obtain ⟨node, hlook, rfl⟩ := Option.map_eq_some_iff.mp hmap
  exact ⟨rfl, hcounted, hlook⟩

/-- The candidates are the names that retention counts. -/
theorem PruneTask.map_generation_candidate (names : List Bytes) :
    (names.filterMap (task.candidate fs)).map Candidate.generation =
      names.filterMap (task.counted fs) := by
  rw [List.map_filterMap]
  congr 1
  funext name
  rw [PruneTask.candidate]
  cases hcounted : task.counted fs name with
  | none => rfl
  | some generation =>
    obtain ⟨-, -, hmode⟩ := PruneTask.counted_some hcounted
    rw [Fs.modeAt] at hmode
    split at hmode
    · next i hlook => rw [hlook]; rfl
    · cases hmode

/-- A name that may be pruned: an automatic backup of the vault, not younger than the
given generation. -/
def PruneTask.Listed (task : PruneTask) (c : Candidate) : Prop :=
  parseAutomaticBackupName c.name = some (task.vaultId, c.generation) ∧
    c.generation ≤ task.maximumGeneration

theorem PruneTask.listed_of_candidate (h : c ∈ names.filterMap (task.candidate fs)) :
    task.Listed c := by
  obtain ⟨name, -, hc⟩ := List.mem_filterMap.mp h
  obtain ⟨rfl, hcounted, -⟩ := PruneTask.candidate_some hc
  obtain ⟨hparse, hle, -⟩ := PruneTask.counted_some hcounted
  exact ⟨hparse, hle⟩

theorem PruneTask.names_sublist (names : List Bytes) :
    ((names.filterMap (task.candidate fs)).map Candidate.name).Sublist names := by
  induction names with
  | nil => exact List.Sublist.refl _
  | cons name rest ih =>
    cases hc : task.candidate fs name with
    | none =>
      rw [List.filterMap_cons_none hc]
      exact ih.cons name
    | some c =>
      rw [List.filterMap_cons_some hc, List.map_cons, (PruneTask.candidate_some hc).1]
      exact ih.cons_cons name

/-- A name that pruning may remove: an automatic backup of the vault, older than the given
generation. -/
def PruneTask.Older (task : PruneTask) (name : Bytes) : Prop :=
  ∃ generation, parseAutomaticBackupName name = some (task.vaultId, generation) ∧
    generation < task.maximumGeneration

theorem Candidate.le_trans {a b : Candidate} (hab : a.le b = true) (hbc : b.le c = true) :
    a.le c = true := by
  simp only [Candidate.le, decide_eq_true_eq] at hab hbc ⊢
  rcases hab with hab | ⟨hab, hab'⟩
  · rcases hbc with hbc | ⟨hbc, -⟩
    · exact .inl (Nat.lt_trans hab hbc)
    · exact .inl (hbc ▸ hab)
  · rcases hbc with hbc | ⟨hbc, hbc'⟩
    · exact .inl (hab ▸ hbc)
    · exact .inr ⟨hab.trans hbc, List.le_trans hab' hbc'⟩

theorem Candidate.le_total (a b : Candidate) : (a.le b || b.le a) = true := by
  simp only [Candidate.le, Bool.or_eq_true, decide_eq_true_eq]
  rcases Nat.lt_trichotomy a.generation b.generation with hlt | heq | hgt
  · exact .inl (.inl hlt)
  · rcases List.le_total a.name b.name with hle | hle
    · exact .inl (.inr ⟨heq, hle⟩)
    · exact .inr (.inr ⟨heq.symm, hle⟩)
  · exact .inr (.inl hgt)

theorem Candidate.generation_le {a b : Candidate} (h : a.le b = true) :
    a.generation ≤ b.generation := by
  simp only [Candidate.le, decide_eq_true_eq] at h
  omega

/-- The surplus leaves at least one candidate that is not older, and no two candidates have
one generation: so everything in it is older than the maximum. -/
theorem PruneTask.older_of_surplus {keep : Nat} (hkeep : 0 < keep) (hmore : keep < found.length)
    (hnodup : (found.map Candidate.name).Nodup) (hlisted : ∀ c ∈ found, task.Listed c) :
    ∀ c ∈ (found.mergeSort Candidate.le).take (found.length - keep), task.Older c.name := by
  have hperm : (found.mergeSort Candidate.le).Perm found := List.mergeSort_perm _ _
  have hsorted : (found.mergeSort Candidate.le).Pairwise (fun a b => a.le b = true) :=
    @List.pairwise_mergeSort _ Candidate.le (fun _ _ _ => Candidate.le_trans) Candidate.le_total _
  have hnames : ((found.mergeSort Candidate.le).map Candidate.name).Nodup :=
    (hperm.map Candidate.name).nodup_iff.mpr hnodup
  have hall : ∀ c ∈ found.mergeSort Candidate.le, task.Listed c := fun c hc =>
    hlisted c (hperm.mem_iff.mp hc)
  have hlen := hperm.length_eq
  generalize found.mergeSort Candidate.le = sorted at hsorted hnames hall hlen ⊢
  intro c hc
  -- A candidate that stays.
  obtain ⟨c', hc'⟩ : ∃ c', c' ∈ sorted.drop (found.length - keep) := by
    refine List.exists_mem_of_ne_nil _ fun hnil => ?_
    have := List.drop_eq_nil_iff.mp hnil
    omega
  rw [← List.take_append_drop (found.length - keep) sorted] at hsorted hnames
  have hle := Candidate.generation_le ((List.pairwise_append.mp hsorted).2.2 c hc c' hc')
  have hc₁ := hall c (List.mem_of_mem_take hc)
  have hc₂ := hall c' (List.mem_of_mem_drop hc')
  refine ⟨c.generation, hc₁.1, Nat.lt_of_le_of_ne hc₁.2 fun hmax => ?_⟩
  have hsame : c.name = c'.name := by
    rw [format_of_parse hc₁.1, format_of_parse hc₂.1]
    congr 1
    have := hc₂.2
    omega
  rw [List.map_append] at hnames
  exact (List.nodup_append.mp hnames).2.2 _ (List.mem_map_of_mem hc) _ (List.mem_map_of_mem hc') hsame

/-- The surplus of the sorted candidates is the surplus, in whatever order they were found. -/
theorem PruneTask.surplus_eq (hperm : names.Perm (fs.names task.dir))
    (hfound : found = names.filterMap (task.candidate fs)) :
    ((found.mergeSort Candidate.le).take (found.length - task.retention)).map Candidate.name =
      task.surplus fs := by
  have hsort : (found.mergeSort Candidate.le).Perm found := List.mergeSort_perm _ _
  have hsorted : (found.mergeSort Candidate.le).Pairwise (fun a b => a.le b = true) :=
    @List.pairwise_mergeSort _ Candidate.le (fun _ _ _ => Candidate.le_trans) Candidate.le_total _
  -- Both lists of generations are sorted, and they have the same members.
  have hgenerations : (found.mergeSort Candidate.le).map Candidate.generation =
      task.oldestFirst fs := by
    refine List.Perm.eq_of_pairwise' (r := (· ≤ ·)) ?_ ?_ ?_
    · exact List.pairwise_map.mpr (hsorted.imp Candidate.generation_le)
    · exact List.pairwise_mergeSort' (· ≤ ·) _
    · refine ((hsort.map Candidate.generation).trans ?_).trans (List.mergeSort_perm _ _).symm
      rw [hfound, PruneTask.map_generation_candidate]
      exact hperm.filterMap _
  rw [PruneTask.surplus, ← hgenerations, List.length_map, hsort.length_eq, ← List.map_take,
    List.map_map]
  refine List.map_congr_left fun c hc => ?_
  have hmem : c ∈ found := hsort.mem_iff.mp (List.mem_of_mem_take hc)
  exact format_of_parse (PruneTask.listed_of_candidate (hfound ▸ hmem)).1

/-! ## Pruning -/

/-- A file with one link has one name. -/
def Fs.LinksCounted (fs : Fs) : Prop :=
  ∀ d name d' name' i n, fs.lookup d name = some (.file i) → fs.lookup d' name' = some (.file i) →
    fs.inodes[i]? = some n → n.nlink = 1 → d = d' ∧ name = name'

/-- The names of this directory are those of `fs`. -/
theorem Fs.names_eq {dir : Dir} (h : fs.dirs[d]? = some dir) :
    fs.names d = dir.entries.keys := by
  rw [Fs.names, h]
  rfl

/-- What pruning may have done. -/
structure PruneResult (task : PruneTask) (faults : Bool) (fs fs' : Fs) (status : PvStatus) :
    Prop where
  /-- a front part of the surplus is gone, and nothing else -/
  front : ∃ k, Fs.Removed task.dir ((task.surplus fs).take k) fs fs'
  /-- all of it after `PV_OK` -/
  all : status = .ok → Fs.Removed task.dir (task.surplus fs) fs fs'
  /-- nothing if some backup of the vault is not in order -/
  refused : (∃ name ∈ fs.names task.dir, ¬task.InOrder so fs name) → fs' = fs
  /-- `PV_OK` if all are in order and no call fails -/
  succeeds : faults = false → fs.statDir task.dir = some ⟨true, 0o700⟩ → fs.LinksCounted →
    (fs.names task.dir).length < 2 ^ 56 → (∀ name ∈ fs.names task.dir, task.InOrder so fs name) →
    status = .ok

/-- The candidates of a directory that is in order are private files of their own. -/
theorem PruneTask.holds_of_inOrder (horder : ∀ name ∈ names, task.InOrder so fs name)
    (h : c ∈ names.filterMap (task.candidate fs)) : fs.Holds task.dir c := by
  obtain ⟨name, hmem, hc⟩ := List.mem_filterMap.mp h
  obtain ⟨rfl, hcounted, hnode⟩ := PruneTask.candidate_some hc
  obtain ⟨disk, ⟨i, n, hlook, hn, hpriv, -⟩, -⟩ :=
    horder c.name hmem c.generation (PruneTask.counted_some hcounted).1
  rw [hlook] at hnode
  exact ⟨i, n, (Option.some.inj hnode).symm, hlook, hn, hpriv⟩

/-- Distinct names, distinct files. -/
theorem PruneTask.distinct (hlinks : fs.LinksCounted) (hholds : ∀ c ∈ found, fs.Holds task.dir c)
    (hnodup : (found.map Candidate.name).Nodup) :
    found.Pairwise fun a b => a.name ≠ b.name ∧ a.node ≠ b.node := by
  have hnames : found.Pairwise fun a b => a.name ≠ b.name := List.pairwise_map.mp hnodup
  refine hnames.imp_of_mem fun {a b} ha hb hne => ⟨hne, fun heq => hne ?_⟩
  obtain ⟨i, n, hi, hlook, hn, hpriv⟩ := hholds a ha
  obtain ⟨j, m, hj, hlook', -⟩ := hholds b hb
  rw [hi, hj] at heq
  cases heq
  exact (hlinks _ _ _ _ i n hlook hlook' hn hpriv.2.1).2

/-- What is known of the surplus of a directory that is in order: private files of their own,
all older than the maximum. -/
structure SurplusOf (task : PruneTask) (fs : Fs) (surplus : List Candidate) : Prop where
  names_eq : surplus.map Candidate.name = task.surplus fs
  older : ∀ c ∈ surplus, task.Older c.name
  holds : ∀ c ∈ surplus, fs.Holds task.dir c
  distinct : fs.LinksCounted → surplus.Pairwise fun a b => a.name ≠ b.name ∧ a.node ≠ b.node

theorem PruneTask.surplusOf (hperm : names.Perm (fs.names task.dir)) (hnodup : names.Nodup)
    (horder : ∀ name ∈ names, task.InOrder so fs name)
    (hfound : found = names.filterMap (task.candidate fs)) (hkeep : 1 ≤ task.retention)
    (hmore : task.retention < found.length) :
    SurplusOf task fs
      ((found.mergeSort Candidate.le).take (found.length - task.retention)) := by
  have hsort : (found.mergeSort Candidate.le).Perm found := List.mergeSort_perm _ _
  have hnames : (found.map Candidate.name).Nodup := by
    rw [hfound]
    exact (PruneTask.names_sublist names).nodup hnodup
  have hlisted : ∀ c ∈ found, task.Listed c := by
    rw [hfound]
    exact fun c hc => PruneTask.listed_of_candidate hc
  have hholds : ∀ c ∈ (found.mergeSort Candidate.le).take (found.length - task.retention),
      fs.Holds task.dir c := fun c hc =>
    PruneTask.holds_of_inOrder so horder (hfound ▸ hsort.mem_iff.mp (List.mem_of_mem_take hc))
  refine ⟨PruneTask.surplus_eq hperm hfound, PruneTask.older_of_surplus hkeep hmore hnames hlisted,
    hholds, fun hlinks => PruneTask.distinct hlinks hholds ?_⟩
  exact ((List.take_sublist _ _).map Candidate.name).nodup
    ((hsort.map Candidate.name).nodup_iff.mpr hnames)

/-- **Pruning**, step by step: every own step removes only names that may be removed, of backups
that are in order. -/
theorem pruneAutomaticBackups_result
    (hpruned : ∀ a b, Fs.Pruned task.dir (fun name => task.Older name ∧ task.InOrder so fs name) a b →
      G a b) (hmax : 1 ≤ task.maximumGeneration) (hkeep : 1 ≤ task.retention) :
    (files faults Alone G).wp (pruneAutomaticBackups so host task)
      (fun status fs' => PruneResult so task faults fs fs' status) fs := by
  have hG : ∀ fs, G fs fs := fun fs => hpruned fs fs (Fs.Pruned.refl fs)
  -- Nothing was removed: for a reason, or because there is no surplus.
  have hnone : ∀ {status}, status ≠ .ok →
      (faults = false → fs.statDir task.dir = some ⟨true, 0o700⟩ → fs.LinksCounted →
        (fs.names task.dir).length < 2 ^ 56 →
        ¬∀ name ∈ fs.names task.dir, task.InOrder so fs name) →
      PruneResult so task faults fs fs status := by
    refine fun hne hwhy => ⟨⟨0, Fs.Removed.none _ fs⟩, fun h => absurd h hne, fun _ => rfl, ?_⟩
    exact fun hf hd hl hlen hall => absurd hall (hwhy hf hd hl hlen)
  have hfinish : ∀ {fs' : Fs} {status deleted},
      (∀ s, (s = .ok → status = .ok) → (faults = false → status = .ok → s = .ok) →
        PruneResult so task faults fs fs' s) →
      (files faults Alone G).wp (finishPruning task.dir status deleted)
        (fun s fs'' => PruneResult so task faults fs fs'' s) fs' := by
    intro fs' status deleted h
    refine Sem.wp_mono (finishPruning_spec hG) ?_
    rintro s fs'' ⟨rfl, hs, hs'⟩
    exact h s hs hs'
  rw [pruneAutomaticBackups, if_neg (by omega)]
  refine wp_query rfl hG (fun fs₁ e hrely he => ?_) fun fs₁ st hrely hstat => ?_
  · obtain rfl : fs₁ = fs := hrely
    refine hnone nofun fun hfalse hdir => ?_
    obtain ⟨dir, hdir, -⟩ := Option.map_eq_some_iff.mp hdir
    have hact := he hfalse
    simp only [Fs.act, hdir] at hact
    cases hact
  obtain rfl : fs₁ = fs := hrely
  have hstat' := Fs.act_statDir hstat
  dsimp only
  split
  · next hforeign =>
    refine hnone nofun fun _ hdir => ?_
    rw [hstat'] at hdir
    cases hdir
    rcases hforeign with h | h
    · cases h
    · exact absurd rfl h
  obtain ⟨dir, hdir, -⟩ := Option.map_eq_some_iff.mp hstat'
  refine wp_listDir hG (fun fs₂ e hrely he => ?_) fun fs₂ dir' names hrely hdir' hperm => ?_
  · obtain rfl : fs₂ = fs₁ := hrely
    refine hnone nofun fun hfalse => ?_
    rw [he hfalse] at hdir
    cases hdir
  obtain rfl : fs₂ = fs₁ := hrely
  have hperm : names.Perm (fs₂.names task.dir) := by rwa [Fs.names_eq hdir']
  have hnodup : names.Nodup := by
    rw [hperm.nodup_iff, Fs.names_eq hdir']
    exact AList.keys_nodup _
  refine Sem.wp_then (scanBackups_spec so host hG names 0 []) ?_
  rintro r fs₃ ⟨rfl, hok, herr⟩
  cases r with
  | error status =>
    obtain ⟨hne, hbad⟩ := herr status rfl
    refine hfinish fun s hs _ => hnone (fun h => hne (hs h)) fun hfalse _ _ hlen hall => ?_
    rw [← hperm.length_eq] at hlen
    obtain ⟨name, hmem, hout⟩ := hbad hfalse (by rw [List.length_nil]; omega)
    exact hout (hall name (hperm.mem_iff.mp hmem))
  | ok found =>
  obtain ⟨horder, hfound⟩ := hok found rfl
  rw [List.nil_append] at hfound
  have hrefused : ¬∃ name ∈ fs₃.names task.dir, ¬task.InOrder so fs₃ name := by
    rintro ⟨name, hmem, hout⟩
    exact hout (horder name (hperm.mem_iff.mpr hmem))
  dsimp only
  split
  · next hfew =>
    have hempty : task.surplus fs₃ = [] := by
      rw [← PruneTask.surplus_eq hperm hfound, Nat.sub_eq_zero_of_le hfew, List.take_zero,
        List.map_nil]
    refine hfinish fun s _ hs => ⟨⟨0, Fs.Removed.none _ _⟩, fun _ => ?_, fun _ => rfl,
      fun hfalse _ _ _ _ => hs hfalse rfl⟩
    rw [hempty]
    exact Fs.Removed.none _ _
  next hmore =>
  have hsurplus := PruneTask.surplusOf so hperm hnodup horder hfound hkeep (Nat.not_le.mp hmore)
  have hlisted : ∀ c ∈ (found.mergeSort Candidate.le).take (found.length - task.retention),
      task.InOrder so fs₃ c.name := by
    intro c hc
    have hc := (List.mergeSort_perm _ _).mem_iff.mp (List.mem_of_mem_take hc)
    obtain ⟨name, hmem, hcandidate⟩ := List.mem_filterMap.mp (hfound ▸ hc)
    obtain ⟨rfl, -⟩ := PruneTask.candidate_some hcandidate
    exact horder _ hmem
  generalize (found.mergeSort Candidate.le).take (found.length - task.retention) = surplus
    at hsurplus hlisted
  refine Sem.wp_then (recheckAll_spec hG surplus) ?_
  rintro status fs₄ ⟨rfl, hchecked⟩
  split
  · next hstatus =>
    exact hfinish fun s hs _ => hnone (fun h => hstatus (hs h)) fun hfalse _ _ _ _ =>
      hstatus (hchecked hfalse hsurplus.holds)
  · refine Sem.wp_then (removeAll_spec hpruned surplus false fun c hc =>
      ⟨hsurplus.older c hc, hlisted c hc⟩) ?_
    rintro ⟨status', deleted⟩ fs₅ ⟨⟨k, hremoved, hfull⟩, hdone⟩
    rw [List.map_take, hsurplus.names_eq] at hremoved
    refine hfinish fun s hs hs' => ⟨⟨k, hremoved⟩, fun h => ?_, fun hex => absurd hex hrefused,
      fun hfalse _ hlinks _ _ => hs' hfalse (hdone hfalse hsurplus.holds (hsurplus.distinct hlinks))⟩
    have hlen : (task.surplus fs₄).length ≤ k := by
      rw [← hsurplus.names_eq, List.length_map]
      exact hfull (hs h)
    rwa [List.take_of_length_le hlen] at hremoved

theorem Fs.names_nodup (fs : Fs) (d : Nat) : (fs.names d).Nodup := by
  rw [Fs.names]
  cases fs.dirs[d]? with
  | none => exact List.nodup_nil
  | some dir => exact AList.keys_nodup _

/-- The surplus leaves the youngest: everything in it is older than the maximum. -/
theorem PruneTask.older_of_mem_surplus (hkeep : 1 ≤ task.retention) (h : name ∈ task.surplus fs) :
    task.Older name := by
  rw [← PruneTask.surplus_eq (List.Perm.refl _) rfl] at h
  obtain ⟨c, hc, rfl⟩ := List.mem_map.mp h
  have hmore : task.retention < ((fs.names task.dir).filterMap (task.candidate fs)).length := by
    by_contra hfew
    rw [Nat.sub_eq_zero_of_le (Nat.not_lt.mp hfew), List.take_zero] at hc
    cases hc
  exact PruneTask.older_of_surplus hkeep hmore
    ((PruneTask.names_sublist _).nodup (fs.names_nodup task.dir))
    (fun c hc => PruneTask.listed_of_candidate hc) c hc

/-- **Pruning** removes nothing but automatic backups of the vault that are older than the
given generation, whatever fails. -/
theorem pruneAutomaticBackups_spec
    (hpruned : ∀ a b, Fs.Pruned task.dir task.Older a b → G a b) :
    (files faults Alone G).wp (pruneAutomaticBackups so host task)
      (fun _ fs' => Fs.Pruned task.dir task.Older fs fs') fs := by
  by_cases husage : task.maximumGeneration = 0 ∨ task.retention = 0
  · rw [pruneAutomaticBackups, if_pos husage]
    exact Fs.Pruned.refl _
  · have hkeep : 1 ≤ task.retention := by omega
    refine Sem.wp_mono (pruneAutomaticBackups_result so host
      (fun a b h => hpruned a b (h.mono fun _ hname => hname.1)) (by omega) hkeep) ?_
    rintro status fs' ⟨⟨k, hremoved⟩, -⟩
    exact hremoved.pruned.mono fun name hname =>
      PruneTask.older_of_mem_surplus hkeep (List.mem_of_mem_take hname)

variable (task fs) in
/-- **Retention deletes exactly the surplus oldest backups.** Whatever the directory holds and
in whatever order it is listed, pruning removes a front part of the surplus and nothing else;
all of it if it returns `PV_OK`; nothing if a backup of the vault is not in order. If all are in
order and no call fails, it does return `PV_OK`. The backup of the given generation stays. -/
theorem prune_removes_surplus (faults : Bool) (hmax : 1 ≤ task.maximumGeneration)
    (hfits : task.maximumGeneration ≤ sizeMax) (hkeep : 1 ≤ task.retention) :
    (files faults Alone fun _ _ => True).wp (pruneAutomaticBackups so host task)
      (fun status fs' =>
        (∃ k, Fs.Removed task.dir ((task.surplus fs).take k) fs fs') ∧
        (status = .ok → Fs.Removed task.dir (task.surplus fs) fs fs') ∧
        ((∃ name ∈ fs.names task.dir, ¬task.InOrder so fs name) → fs' = fs) ∧
        (faults = false → fs.statDir task.dir = some ⟨true, 0o700⟩ → fs.LinksCounted →
          (fs.names task.dir).length < 2 ^ 56 →
          (∀ name ∈ fs.names task.dir, task.InOrder so fs name) → status = .ok) ∧
        fs'.lookup task.dir (autoBackupName task.vaultId task.maximumGeneration) =
          fs.lookup task.dir (autoBackupName task.vaultId task.maximumGeneration)) fs := by
  refine Sem.wp_mono (pruneAutomaticBackups_result so host (fun _ _ _ => trivial) hmax hkeep) ?_
  rintro status fs' ⟨⟨k, hremoved⟩, hall, hrefused, hok⟩
  refine ⟨⟨k, hremoved⟩, hall, hrefused, hok, hremoved.pruned.lookup_eq _ _ fun hbad => ?_⟩
  obtain ⟨generation, hparse, hlt⟩ :=
    PruneTask.older_of_mem_surplus hkeep (List.mem_of_mem_take hbad.2)
  rw [parseAutomaticBackupName_format hmax hfits] at hparse
  cases hparse
  exact Nat.lt_irrefl _ hlt

end Prune

/-! ## A directory with two backups -/

/-- A header that encryption completes. -/
def backupHeader : FileHeader :=
  { freshHeader FileHeader.zero ⟨Block.ofBytes _ [1], ⟨Block.zero _, Block.zero _⟩, Block.zero _⟩ with
    passwordSlot := ⟨3, 268435456, Block.zero _, Block.zero _, Block.zero _⟩ }

/-- The contents of an empty vault. -/
def emptyPayload (generation : UInt64) (updated : Int64) : Payload :=
  ⟨generation, Block.ofBytes _ [7], 0, updated, []⟩

/-- Random bytes that are all zero. -/
def zeroDraws : BodyDraws := ⟨fun n => Block.zero n, Block.zero _⟩

/-- The encryption of these contents. -/
def emptySnapshot (generation : UInt64) (updated : Int64) : PvStatus × FileHeader × Bytes :=
  pvCryptoEncryptBody Sodium.toy backupHeader (Block.zero _)
    (payloadBytes (emptyPayload generation updated)) zeroDraws .granted

/-- The file that holds them. -/
def backupInode (generation : UInt64) : Inode :=
  ⟨serialized (emptySnapshot generation 0).2.1 ++ (emptySnapshot generation 0).2.2, true, 1, 0o600, true,
    true⟩

/-- The name of the backup of a generation. -/
abbrev backupName (generation : Nat) : Bytes := autoBackupName backupHeader.vaultId generation

/-- A directory with the backups of the generations 1 and 2. -/
def twoBackups : Fs :=
  { (Fs.bare.bindFile 0 (backupName 1) 0).bindFile 0 (backupName 2) 1 with
    inodes := [backupInode 1, backupInode 2] }

/-- Keep one backup. -/
def keepOne : PruneTask where
  dir := 0
  vaultId := backupHeader.vaultId
  vmk := Block.zero _
  maximumGeneration := 2
  retention := 1
  env _ := ⟨.granted, .allocated, .allocated, sampleEnv⟩

theorem length_emptyPayload (generation : UInt64) (updated : Int64) :
    (payloadBytes (emptyPayload generation updated)).length ≤ pvMaxPlaintext - 4 := by
  refine Nat.le_trans (length_tokensBytes_le _) ?_
  -- twelve heads and the device id
  show 9 + (9 + (9 + (9 + (9 + (9 + (9 + (Block.ofBytes pvDeviceIdBytes [7]).bytes.length +
    (9 + (9 + (9 + (9 + (9 + (9 + 0)))))))))))) ≤ _
  rw [Block.length_bytes]
  decide

theorem emptyPayload_accepted (generation : UInt64) : (emptyPayload generation 0).Accepted where
  created_nonneg := show (0 : Int64) ≤ 0 by decide
  updated_nonneg := show (0 : Int64) ≤ 0 by decide
  deviceId_ne := show bytesAllZero (Block.ofBytes pvDeviceIdBytes [7]).bytes = false by decide
  records_valid := List.forall_mem_nil _
  ids_nodup := List.nodup_nil
  count_le := Nat.zero_le _
  length_le := Nat.le_trans (length_emptyPayload generation 0) (Nat.sub_le _ _)

theorem backupHeader_usable : backupHeader.Usable :=
  ⟨rfl, rfl, rfl, rfl, rfl, by decide, rfl, rfl, rfl, rfl, by decide, by decide,
    1, by decide, by decide, rfl⟩

theorem emptySnapshot_ok (generation : UInt64) (updated : Int64) : ∃ header ciphertext,
    emptySnapshot generation updated = (.ok, header, ciphertext) ∧ header.V1 ∧
      header.vaultId = backupHeader.vaultId ∧
      ciphertext.length = header.bodyCiphertextLen.toNat := by
  have hne : payloadBytes (emptyPayload generation updated) ≠ [] := fun h =>
    payloadBytes_ne_nil (emptyPayload generation updated) (congrArg List.length h)
  obtain ⟨header, ciphertext, henc, -⟩ := pvCryptoEncryptBody_fits Sodium.toy_documented backupHeader
    (Block.zero _) zeroDraws hne (length_emptyPayload generation updated)
  obtain ⟨hv, hct, hframe⟩ := pvCryptoEncryptBody_v1 backupHeader_usable henc
  exact ⟨header, ciphertext, henc, hv, by rw [hframe], hct⟩

theorem backupName_ne : backupName 1 ≠ backupName 2 := by
  intro h
  have h' := congrArg parseAutomaticBackupName h
  rw [parseAutomaticBackupName_format (by decide) (by decide),
    parseAutomaticBackupName_format (by decide) (by decide)] at h'
  cases h'

theorem twoBackups_lookup (d : Nat) (name : Bytes) : twoBackups.lookup d name =
    if d = 0 ∧ name = backupName 2 then some (.file 1)
    else if d = 0 ∧ name = backupName 1 then some (.file 0) else none := by
  show (((Fs.bare.bindFile 0 (backupName 1) 0).bindFile 0 (backupName 2) 1).lookup d name) = _
  have hbare : Fs.bare.lookup d name = none := by
    cases d with
    | zero => rfl
    | succ d => rfl
  rw [Fs.lookup_bindFile, Fs.lookup_bindFile, hbare]
  simp [Fs.bindFile, Fs.bare]

theorem twoBackups_names : twoBackups.names 0 = [backupName 2, backupName 1] := by
  show ((∅ : AList fun _ : Bytes => Node).insert (backupName 1) (.file 0) |>.insert
    (backupName 2) (.file 1)).keys = _
  rw [AList.keys_insert, AList.keys_insert]
  simp [backupName_ne]

/-- Both backups are in order. -/
theorem twoBackups_inOrder {name : Bytes} (h : name ∈ twoBackups.names keepOne.dir) :
    keepOne.InOrder Sodium.toy twoBackups name := by
  -- the same for both generations
  have hone : ∀ (g : UInt64) (i : Nat), 0 < g.toNat →
      twoBackups.lookup 0 (backupName g.toNat) = some (.file i) →
      twoBackups.inodes[i]? = some (backupInode g) →
      keepOne.InOrder Sodium.toy twoBackups (backupName g.toNat) := by
    intro g i hpos hlook hinode generation hparse
    rw [parseAutomaticBackupName_format hpos (by have := g.toNat_lt; have := sizeMax_eq; omega)]
      at hparse
    cases hparse
    obtain ⟨header, ciphertext, hseal, hv, hid, hct⟩ := emptySnapshot_ok g 0
    refine ⟨sealedDisk Sodium.toy header ciphertext ((backupInode g).stat i), ?_, ?_⟩
    · refine ⟨i, backupInode g, hlook, hinode, ⟨rfl, rfl, .inr rfl⟩, ?_, rfl⟩
      rw [show (backupInode g).data = serialized header ++ ciphertext by rw [backupInode, hseal]]
      exact sealedDisk_reads _ hv hct
    · have henv : (keepOne.env (backupName g.toNat)).Grants :=
        ⟨rfl, rfl, rfl, streamDecodes_plain, rfl⟩
      have hauth := authenticateBackup_sealed Sodium.toy_aeadCorrect (emptyPayload_accepted g)
        (show rebuiltEnd [] ≤ pvArenaCapacity by decide) hseal henv ((backupInode g).stat i)
      rw [hid] at hauth
      exact hauth
  rw [show keepOne.dir = 0 from rfl, twoBackups_names] at h
  rcases List.mem_cons.mp h with rfl | h
  · exact hone 2 1 (by decide) ((twoBackups_lookup _ _).trans (if_pos ⟨rfl, rfl⟩)) rfl
  · rw [List.mem_singleton.mp h]
    refine hone 1 0 (by decide) ((twoBackups_lookup _ _).trans ?_) rfl
    rw [if_neg fun hbad => backupName_ne hbad.2, if_pos ⟨rfl, rfl⟩]

theorem keepOne_surplus : keepOne.surplus twoBackups = [backupName 1] := by
  have hone : ∀ g i, 0 < g → g ≤ 2 → twoBackups.lookup 0 (backupName g) = some (.file i) →
      (twoBackups.inodes[i]?.map Inode.mode) = some 0o600 →
      keepOne.counted twoBackups (backupName g) = some g := by
    intro g i hpos hle hlook hmode
    rw [PruneTask.counted, parseAutomaticBackupName_format hpos (by have := sizeMax_eq; omega)]
    have hmodeAt : twoBackups.modeAt 0 (backupName g) = some 0o600 := by
      rw [Fs.modeAt, hlook]
      exact hmode
    exact if_pos ⟨rfl, hle, hmodeAt⟩
  have hcounted : (twoBackups.names keepOne.dir).filterMap (keepOne.counted twoBackups) = [2, 1] := by
    rw [show keepOne.dir = 0 from rfl, twoBackups_names,
      List.filterMap_cons_some (hone 2 1 (by decide) (by decide)
        ((twoBackups_lookup _ _).trans (if_pos ⟨rfl, rfl⟩)) rfl),
      List.filterMap_cons_some (hone 1 0 (by decide) (by decide) ((twoBackups_lookup _ _).trans
        ((if_neg fun hbad => backupName_ne hbad.2).trans (if_pos ⟨rfl, rfl⟩))) rfl)]
    rfl
  have hsorted : keepOne.oldestFirst twoBackups = [1, 2] := by
    rw [PruneTask.oldestFirst, hcounted]
    refine List.Perm.eq_of_pairwise' (r := (· ≤ ·)) (List.pairwise_mergeSort' (· ≤ ·) _) (by decide) ?_
    exact (List.mergeSort_perm _ _).trans (List.Perm.swap ..)
  rw [PruneTask.surplus, hsorted]
  rfl

theorem twoBackups_linksCounted : twoBackups.LinksCounted := by
  intro d name d' name' i n hlook hlook' _ _
  rw [twoBackups_lookup] at hlook hlook'
  split_ifs at hlook with h₁ h₂
  · split_ifs at hlook' with h₁' h₂'
    · exact ⟨h₁.1.trans h₁'.1.symm, h₁.2.trans h₁'.2.symm⟩
    · cases hlook
      cases hlook'
  · split_ifs at hlook' with h₁' h₂'
    · cases hlook
      cases hlook'
    · exact ⟨h₂.1.trans h₂'.1.symm, h₂.2.trans h₂'.2.symm⟩

/-- Of two backups the older one is removed. -/
theorem prune_removes_surplus_two :
    (files false Alone fun _ _ => True).wp
      (pruneAutomaticBackups Sodium.toy plainHost keepOne)
      (fun status fs' => status = .ok ∧ Fs.Removed 0 [backupName 1] twoBackups fs') twoBackups := by
  refine Sem.wp_mono (prune_removes_surplus Sodium.toy plainHost keepOne twoBackups false
    (by decide) (by decide) (by decide)) ?_
  rintro status fs' ⟨-, hall, -, hok, -⟩
  have hfew : (twoBackups.names keepOne.dir).length < 2 ^ 56 := by
    rw [show keepOne.dir = 0 from rfl, twoBackups_names]
    decide
  have hstatus := hok rfl rfl twoBackups_linksCounted hfew fun name hname => twoBackups_inOrder hname
  have hremoved := hall hstatus
  rw [keepOne_surplus] at hremoved
  exact ⟨hstatus, hremoved⟩

end PVault
