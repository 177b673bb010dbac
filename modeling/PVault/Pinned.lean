import PVault.Prune

/-!
# Pinning a backup while pruning runs

A user pins a backup by setting its mode to `0400`. Pruning reads the mode of a backup when it
lists the directory; the two later checks of `prune_automatic_backups` accept `0400` as well as
`0600`.

The world is watched: it remembers which files pruning has looked at through a descriptor, and
the name and mode of the last `fstatat`. `pinned_backup_is_unlinked` is a run in which a backup
that is pinned at its final check is removed nevertheless, and
`unlinks_no_pinned_backup` says that this does not happen if no backup is pinned after it was
listed.
-/

namespace PVault

open Binary Conc

/-! ## The watched world -/

/-- The file system, and what pruning has looked at. -/
structure Watched where
  fs : Fs
  /-- the files whose mode was read through a descriptor -/
  seen : List Nat
  /-- the name and the mode of the last `fstatat` -/
  checked : Option (Bytes × Nat)

/-- The file whose mode a call has read through a descriptor. -/
def FileOp.seenBy : (op : FileOp) → FileRes op → List Nat
  | .stat (.file i), .ok _ => [i]
  | _, _ => []

/-- The name and mode that an `fstatat` has returned. -/
def FileOp.checkedBy : (op : FileOp) → FileRes op → Option (Bytes × Nat)
  | .statAt _ name, .ok st => some (name, st.mode)
  | _, _ => none

/-- The world after a call. -/
def Watched.observe (w : Watched) (fs' : Fs) (op : FileOp) (r : FileRes op) : Watched :=
  ⟨fs', op.seenBy r ++ w.seen, (op.checkedBy r).or w.checked⟩

/-- Programs over the watched file system. Nothing is promised about returning. -/
def watching (faults : Bool) (R G : Watched → Watched → Prop) : Sem FileRes Watched where
  step w op r w' := ∃ fs', Fs.Step faults w.fs op r fs' ∧ w' = w.observe fs' op r
  rely := R
  guar := G
  diverges := True

/-! ## The user -/

/-- Modes were changed between `0400` and `0600`, and nothing else. -/
structure Chmods (a b : Fs) : Prop where
  dirs_eq : b.dirs = a.dirs
  cwd_eq : b.cwd = a.cwd
  log_eq : b.log = a.log
  inode : ∀ i : Nat, b.inodes[i]? = a.inodes[i]? ∨
    ∃ n m, a.inodes[i]? = some n ∧ b.inodes[i]? = some m ∧ m = { n with mode := m.mode } ∧
      privateMode n.mode ∧ privateMode m.mode

/-- What the user may do. -/
structure UserActs (w w' : Watched) : Prop where
  chmods : Chmods w.fs w'.fs
  seen_eq : w'.seen = w.seen
  checked_eq : w'.checked = w.checked

/-- The same, but no file is pinned that pruning has already looked at. -/
structure UserSpares (w w' : Watched) : Prop extends UserActs w w' where
  unpinned : ∀ i ∈ w.seen, ∀ n m, w.fs.inodes[i]? = some n → w'.fs.inodes[i]? = some m →
    m.mode = 0o400 → n.mode = 0o400

/-- A step that removes a name follows a check of that name which found it not pinned. -/
def SparesPinned (d : Nat) (w w' : Watched) : Prop :=
  ∀ name, w.fs.lookup d name ≠ none → w'.fs.lookup d name = none →
    ∃ mode, w.checked = some (name, mode) ∧ mode ≠ 0o400

/-! ## Calls that only look -/

variable {fs' : Fs} {w' : Watched} {G R : Watched → Watched → Prop}

/-- A call that changes no file. -/
def FileOp.looks (op : FileOp) : Bool :=
  match op with
  | .listDir _ | .readAt _ _ _ => true
  | op => op.query

theorem Fs.Step.looks_eq {faults : Bool} {fs : Fs} {op : FileOp} {r : FileRes op}
    (h : Fs.Step faults fs op r fs') (hop : op.looks = true) : fs' = fs := by
  cases h with
  | acts =>
    cases op with
    | listDir d => simp only [Fs.act]; split <;> rfl
    | readAt node offset len => simp only [Fs.act]; (repeat' split) <;> rfl
    | _ => exact Fs.act_query hop
  | fails => rfl
  | lists => rfl
  | readsLess => rfl
  | writesLess => cases hop

/-- A candidate that was found not pinned when it was listed is a file with mode `0600`. -/
def Watched.Plain (w : Watched) (c : Candidate) : Prop :=
  ∃ i n, c.node = .file i ∧ i ∈ w.seen ∧ w.fs.inodes[i]? = some n ∧ n.mode = 0o600

/-- The user leaves it at that. -/
theorem Watched.Plain.rely {w : Watched} {c : Candidate} (h : w.Plain c) (hacts : UserSpares w w') :
    w'.Plain c := by
  obtain ⟨i, n, hnode, hseen, hn, hmode⟩ := h
  rcases hacts.chmods.inode i with heq | ⟨n', m, hn', hm, -, -, hprivate⟩
  · exact ⟨i, n, hnode, hacts.seen_eq ▸ hseen, heq.trans hn, hmode⟩
  · rw [hn] at hn'
    cases hn'
    refine ⟨i, m, hnode, hacts.seen_eq ▸ hseen, hm, ?_⟩
    rcases hprivate with hpinned | hplain
    · rw [hacts.unpinned i hseen n m hn hm hpinned] at hmode
      cases hmode
    · exact hplain

/-- All candidates found so far. -/
def Watched.Sound (w : Watched) (found : List Candidate) : Prop := ∀ c ∈ found, w.Plain c

theorem Watched.Sound.observe {w : Watched} {found : List Candidate} (h : w.Sound found)
    (op : FileOp) (r : FileRes op) : (w.observe w.fs op r).Sound found := by
  intro c hc
  obtain ⟨i, n, hnode, hseen, hn, hmode⟩ := h c hc
  exact ⟨i, n, hnode, List.mem_append_right _ hseen, hn, hmode⟩

theorem Watched.Sound.rely {w : Watched} {found : List Candidate} (h : w.Sound found)
    (hacts : UserSpares w w') : w'.Sound found := fun c hc => (h c hc).rely hacts

section Watch

variable {faults : Bool} {d : Nat} {α : Type} {Q : α → Watched → Prop} {w : Watched}
  {found : List Candidate}
variable {Hash : Type}

theorem sparesPinned_of_lookup (h : ∀ name, w'.fs.lookup d name = w.fs.lookup d name) :
    SparesPinned d w w' :=
  fun name hbound hgone => absurd ((h name).symm.trans hgone) hbound

/-- A step that only looks. -/
theorem looking_step {op : FileOp} {r : FileRes op} (hop : op.looks = true)
    (h : (watching faults UserSpares (SparesPinned d)).step w op r w') :
    Fs.Step faults w.fs op r w.fs ∧ w' = w.observe w.fs op r ∧ SparesPinned d w w' := by
  obtain ⟨fs', hstep, rfl⟩ := h
  have hsame := hstep.looks_eq hop
  subst hsame
  exact ⟨hstep, rfl, sparesPinned_of_lookup fun _ => rfl⟩

/-- A call that only looks keeps the candidates. -/
theorem wp_watch {op : FileOp} {k : FileRes op → FileM α} (hop : op.looks = true)
    (h : w.Sound found)
    (hk : ∀ (w₁ : Watched) r, w₁.Sound found → Fs.Step faults w₁.fs op r w₁.fs →
      (watching faults UserSpares (SparesPinned d)).wp (k r) Q (w₁.observe w₁.fs op r)) :
    (watching faults UserSpares (SparesPinned d)).wp (sys op >>= k) Q w := by
  intro w₁ hrely r w₂ hstep
  obtain ⟨hlook, rfl, hguar⟩ := looking_step hop hstep
  exact ⟨hguar, hk w₁ r (h.rely hrely) hlook⟩

/-- A program that only looks keeps the candidates. -/
theorem wp_onlyLooks {T : α → Prop} {p : FileM α} {A : Watched → Prop}
    (hp : p.Only (fun op => op.looks = true) T) (hrely : ∀ a b, A a → UserSpares a b → A b)
    (hlook : ∀ (w : Watched) (op : FileOp) (r : FileRes op), A w → A (w.observe w.fs op r))
    (h : A w) :
    (watching faults UserSpares (SparesPinned d)).wp p (fun a w' => T a ∧ A w') w := by
  refine Sem.wp_only trivial hrely (fun w₁ op r w₂ h₁ hop hstep => ?_) hp h
  obtain ⟨-, rfl, hguar⟩ := looking_step hop hstep
  exact ⟨hguar, hlook w₁ op r h₁⟩

/-! ## Reading a snapshot only looks -/

theorem only_readLoop (host : Host) (node : Node) (passes : Nat) : ∀ (offset len : Nat),
    (readLoop host node passes offset len).Only (fun op => op.looks = true) fun _ => True := by
  induction passes with
  | zero => exact fun _ _ => trivial
  | succ passes ih =>
    intro offset len
    rw [readLoop]
    split
    · trivial
    · refine (only_retry (P := fun op => op.looks = true) rfl host.patience).bind fun r _ => ?_
      cases r with
      | error e => trivial
      | ok got =>
        dsimp only
        split
        · trivial
        · refine (ih _ _).bind fun r _ => ?_
          cases r <;> trivial

/-- Reading an open file only looks, and keeps what `fstat` said. -/
theorem only_readOpenedFile (so : Sodium Hash) (host : Host) (node : Node) (st : Stat) :
    (readOpenedFile so host node st).Only (fun op => op.looks = true)
      fun r => ∀ disk, r = .ok disk → disk.stat = st := by
  have hclose : ∀ status, (closeAnd status : FileM (Except PvStatus (DiskFile Hash))).Only
      (fun op => op.looks = true) fun r => ∀ disk, r = .ok disk → disk.stat = st :=
    fun status => Prog.only_perform_bind rfl fun _ _ h => by cases h
  rw [readOpenedFile]
  split
  · exact hclose _
  refine (only_readLoop host node _ _ _).bind fun r _ => ?_
  cases r with
  | error status => exact hclose _
  | ok headerData =>
  dsimp only
  split
  · exact hclose _
  split
  · exact hclose _
  refine Prog.only_perform_bind rfl fun r => ?_
  cases r with
  | error e => exact hclose _
  | ok _ =>
  refine (only_readLoop host node _ _ _).bind fun r _ => ?_
  cases r with
  | error status => exact hclose _
  | ok ciphertext =>
  refine (only_retry (P := fun op => op.looks = true) rfl host.patience).bind fun r _ => ?_
  cases r with
  | error e => exact hclose _
  | ok extra =>
  dsimp only
  split
  · exact hclose _
  refine Prog.only_perform_bind rfl fun r => ?_
  cases r with
  | error e => exact fun _ h => by cases h
  | ok _ =>
    intro disk h
    cases h
    rfl

/-! ## Listing -/

/-- The mode of a file that is not pinned, once it was looked at, stays what it is. -/
def Watched.Saw (w : Watched) (st : Stat) : Prop :=
  st.mode ≠ 0o400 → ∀ name generation, w.Plain ⟨name, generation, st.node⟩

/-- A stat of an open file was seen. -/
theorem Watched.saw_stat {node : Node} {st : Stat}
    (hstep : Fs.Step faults w.fs (.stat node) (.ok st) w.fs) (hprivate : st.isPrivate) :
    (w.observe w.fs (.stat node) (.ok st)).Saw st := by
  obtain ⟨hact, -⟩ | ⟨-, ⟨e, he⟩, -⟩ := hstep.plain_cases rfl
  · obtain ⟨i, n, rfl, hn, rfl, -⟩ := Fs.statOf_isPrivate hact.symm hprivate
    exact fun hmode name generation =>
      ⟨i, n, rfl, List.mem_append_left _ (List.mem_singleton.mpr rfl), hn,
        hprivate.2.2.2.resolve_left hmode⟩
  · cases he

/-- Reading a snapshot tells whether it was pinned. -/
theorem readDiskFileAt_watched (so : Sodium Hash) (host : Host) {e : Nat} {name : Bytes}
    (h : w.Sound found) :
    (watching faults UserSpares (SparesPinned d)).wp (readDiskFileAt so host e name)
      (fun r w' => w'.Sound found ∧ ∀ disk, r = .ok disk → w'.Saw disk.stat) w := by
  have hclose : ∀ {α : Type} {status : PvStatus} {w : Watched} {P : α → Watched → Prop},
      w.Sound found → (watching faults UserSpares (SparesPinned d)).wp
        (closeAnd status : FileM (Except PvStatus α))
        (fun r w' => w'.Sound found ∧ ∀ a, r = .ok a → P a w') w := by
    intro α status w P hw
    exact wp_watch rfl hw fun w₁ r h₁ _ => ⟨h₁.observe _ r, nofun⟩
  have hopen : (watching faults UserSpares (SparesPinned d)).wp (openPrivateSnapshotAt e name)
      (fun r w' => w'.Sound found ∧ ∀ opened, r = .ok opened → w'.Saw opened.2) w := by
    refine wp_watch rfl h fun w₁ r h₁ _ => ?_
    cases r with
    | error e => exact ⟨h₁.observe _ _, nofun⟩
    | ok node =>
      refine wp_watch rfl (h₁.observe _ _) fun w₂ r h₂ hstep => ?_
      cases r with
      | error e => exact hclose (h₂.observe _ _)
      | ok st =>
        dsimp only
        split
        · next hprivate =>
          refine ⟨h₂.observe _ _, fun opened heq => ?_⟩
          cases heq
          exact Watched.saw_stat hstep hprivate
        · exact hclose (h₂.observe _ _)
  refine Sem.wp_then hopen ?_
  rintro r w₁ ⟨h₁, hsaw⟩
  cases r with
  | error status => exact ⟨h₁, nofun⟩
  | ok opened =>
    -- reading the file keeps the candidates and what was seen of this one
    have hrely : ∀ a b : Watched, a.Sound found ∧ a.Saw opened.2 → UserSpares a b →
        b.Sound found ∧ b.Saw opened.2 := fun a b hab hacts =>
      ⟨hab.1.rely hacts, fun hm x g => (hab.2 hm x g).rely hacts⟩
    have hlook : ∀ (a : Watched) (op : FileOp) (r : FileRes op),
        a.Sound found ∧ a.Saw opened.2 → (a.observe a.fs op r).Sound found ∧
          (a.observe a.fs op r).Saw opened.2 := fun a op r hab =>
      ⟨hab.1.observe op r, fun hm x g => by
        have hone : a.Sound [⟨x, g, opened.2.node⟩] := fun c hc => by
          rw [List.mem_singleton.mp hc]
          exact hab.2 hm x g
        exact hone.observe op r _ (List.mem_singleton.mpr rfl)⟩
    refine Sem.wp_mono (wp_onlyLooks (only_readOpenedFile so host opened.1 opened.2) hrely hlook
      ⟨h₁, hsaw opened rfl⟩) ?_
    rintro r w₂ ⟨hstat, h₂, hsaw₂⟩
    exact ⟨h₂, fun disk heq => by rwa [hstat disk heq]⟩

/-- Listing finds candidates that are not pinned. -/
theorem scanBackups_watched (so : Sodium Hash) (host : Host) (task : PruneTask)
    (names : List Bytes) : ∀ (capacity : Nat) (found : List Candidate) {w : Watched},
    w.Sound found → (watching faults UserSpares (SparesPinned d)).wp
      (scanBackups so host task names capacity found)
      (fun r w' => ∀ found', r = .ok found' → w'.Sound found') w := by
  induction names with
  | nil =>
    intro capacity found w h found' heq
    cases heq
    exact h
  | cons name rest ih =>
    intro capacity found w h
    rw [scanBackups]
    split
    · exact ih _ _ h
    next id generation _ =>
    split
    · exact ih _ _ h
    refine wp_watch rfl h fun w₁ r h₁ _ => ?_
    cases r with
    | error e => exact fun _ h => by cases h
    | ok listed =>
    dsimp only
    split
    · exact fun _ h => by cases h
    refine Sem.wp_then (P := fun r w' => w'.Sound found ∧ ∀ opened, r = .ok opened → w'.Saw opened)
      ?_ ?_
    · refine Sem.wp_then (readDiskFileAt_watched so host (h₁.observe _ _)) ?_
      rintro r w₂ ⟨h₂, hsaw⟩
      cases r with
      | error status => exact ⟨h₂, fun _ h => by cases h⟩
      | ok disk =>
        dsimp only
        split
        · refine ⟨h₂, fun opened heq => ?_⟩
          cases heq
          exact hsaw disk rfl
        · exact ⟨h₂, fun _ h => by cases h⟩
    · rintro r w₂ ⟨h₂, hsaw⟩
      cases r with
      | error status => exact fun _ h => by cases h
      | ok opened =>
      dsimp only
      split
      · exact fun _ h => by cases h
      split
      · exact ih _ _ h₂
      next hkeep =>
      have hnew : w₂.Sound (found ++ [⟨name, generation, opened.node⟩]) := by
        intro c hc
        rcases List.mem_append.mp hc with hc | hc
        · exact h₂ c hc
        · rw [List.mem_singleton.mp hc]
          exact hsaw opened rfl (fun hpinned => hkeep (.inl hpinned)) name generation
      split
      · split
        · exact fun _ h => by cases h
        · refine wp_watch rfl hnew fun w₃ r h₃ _ => ?_
          cases r with
          | error e => exact fun _ h => by cases h
          | ok _ => exact ih _ _ (h₃.observe _ _)
      · exact ih _ _ hnew

/-! ## The two passes over the surplus -/

/-- The first pass only looks. -/
theorem recheckAll_watched (surplus : List Candidate) : ∀ {w : Watched}, w.Sound found →
    (watching faults UserSpares (SparesPinned d)).wp (recheckAll d surplus)
      (fun _ w' => w'.Sound found) w := by
  induction surplus with
  | nil => exact fun h => h
  | cons c rest ih =>
    intro w h
    refine Sem.wp_then (P := fun _ w' => w'.Sound found) ?_ fun checked w₁ h₁ => ?_
    · refine wp_watch rfl h fun w₁ r h₁ _ => ?_
      cases r with
      | error e => exact h₁.observe _ _
      | ok st => exact h₁.observe _ _
    · split
      · exact ih h₁
      · exact h₁

/-- A candidate that passes its check was just seen with mode `0600`. -/
theorem recheckCandidate_watched {c : Candidate} (hc : c ∈ found) (h : w.Sound found) :
    (watching faults UserSpares (SparesPinned d)).wp (recheckCandidate d c)
      (fun r w' => w'.Sound found ∧ (r = true → w'.checked = some (c.name, 0o600))) w := by
  refine wp_watch rfl h fun w₁ r h₁ hstep => ?_
  cases r with
  | error e => exact ⟨h₁.observe _ _, nofun⟩
  | ok st =>
    refine ⟨h₁.observe _ _, fun hr => ?_⟩
    obtain ⟨hprivate, hnode⟩ := of_decide_eq_true hr
    obtain ⟨hact, -⟩ | ⟨-, ⟨e, he⟩, -⟩ := hstep.plain_cases rfl
    · obtain ⟨i, n, -, hn, rfl, -⟩ := Fs.act_statAt_isPrivate hact.symm hprivate
      obtain ⟨j, m, hj, -, hm, hmode⟩ := h₁ c hc
      have hij : i = j := by
        rw [hj] at hnode
        exact Node.file.inj hnode
      subst hij
      rw [hn] at hm
      cases hm
      exact congrArg (fun mode => some (c.name, mode)) hmode
    · cases he

/-- Removing a name keeps the modes of all files. -/
theorem Watched.Sound.unlink (h : w.Sound found) {name : Bytes} {r : FileRes (.unlinkAt d name)}
    (hstep : Fs.Step faults w.fs (.unlinkAt d name) r fs') :
    (w.observe fs' (.unlinkAt d name) r).Sound found ∧
      ∀ other, other ≠ name → fs'.lookup d other = w.fs.lookup d other := by
  obtain ⟨-, rfl⟩ | ⟨-, -, rfl⟩ := hstep.plain_cases rfl
  · simp only [Fs.act]
    split
    · exact ⟨fun c hc => h c hc, fun _ _ => rfl⟩
    · next node _ hlook =>
      refine ⟨fun c hc => ?_, fun other hne => ?_⟩
      · obtain ⟨i, n, hnode, hseen, hn, hmode⟩ := h c hc
        have hdropped : (w.fs.dropLink (some node)).inodes[i]? =
            some (if some node = some (.file i) then { n with nlink := n.nlink - 1 } else n) := by
          rw [Fs.inodes_dropLink, hn]
          rfl
        refine ⟨i, _, hnode, List.mem_append_right _ hseen, hdropped, ?_⟩
        split
        · exact hmode
        · exact hmode
      · exact Fs.lookup_unbind.trans (if_neg fun hbad => hne hbad.2)
    · exact ⟨fun c hc => h c hc, fun _ _ => rfl⟩
  · exact ⟨fun c hc => h c hc, fun _ _ => rfl⟩

/-- The second pass removes only what its check found not pinned. -/
theorem removeAll_watched (surplus : List Candidate) : ∀ (deleted : Bool) {w : Watched},
    (∀ c ∈ surplus, c ∈ found) → w.Sound found →
    (watching faults UserSpares (SparesPinned d)).wp (removeAll d surplus deleted)
      (fun _ w' => w'.Sound found) w := by
  induction surplus with
  | nil => exact fun _ _ _ h => h
  | cons c rest ih =>
    intro deleted w hsub h
    refine Sem.wp_then (recheckCandidate_watched (hsub c (List.mem_cons_self ..)) h) ?_
    rintro checked w₁ ⟨h₁, hchecked⟩
    cases checked with
    | false => exact h₁
    | true =>
      intro w₂ hrely r w₃ hstep
      obtain ⟨fs', hstep, rfl⟩ := hstep
      obtain ⟨h₃, hothers⟩ := (h₁.rely hrely).unlink hstep
      refine ⟨fun name hbound hgone => ?_, ?_⟩
      · by_cases hname : name = c.name
        · subst hname
          exact ⟨0o600, hrely.checked_eq.trans (hchecked rfl), by decide⟩
        · exact absurd ((hothers name hname).symm.trans hgone) hbound
      · cases r with
        | error e => exact h₃
        | ok _ => exact ih true (fun c' hc' => hsub c' (List.mem_cons_of_mem _ hc')) h₃

theorem finishPruning_watched (status : PvStatus) (deleted : Bool) (h : w.Sound found) :
    (watching faults UserSpares (SparesPinned d)).wp (finishPruning d status deleted)
      (fun _ _ => True) w := by
  have honly : (finishPruning d status deleted).Only (fun op => op.looks = true) fun _ => True := by
    have hclosing : ∀ s, (closing s).Only (fun op => op.looks = true) fun _ => True :=
      fun s => Prog.only_perform_bind rfl fun r => by cases r <;> trivial
    rw [finishPruning]
    split
    · exact Prog.only_perform_bind rfl fun r => by cases r <;> exact hclosing _
    · exact hclosing _
  refine Sem.wp_mono (wp_onlyLooks honly (A := fun w => w.Sound found)
    (fun _ _ h hacts => h.rely hacts) (fun _ op r h => h.observe op r) h) ?_
  exact fun _ _ _ => trivial

end Watch

/-- **Pruning spares a pinned backup, if it was pinned in time.** Whatever the user pins and
unpins while pruning runs, and whatever fails: as long as no backup is pinned after pruning has
read its mode for the listing, every backup that is removed had another mode than `0400` at its
final check. -/
theorem unlinks_no_pinned_backup {Hash : Type} (so : Sodium Hash) (host : Host) (faults : Bool)
    (task : PruneTask) (w : Watched) :
    (watching faults UserSpares (SparesPinned task.dir)).wp (pruneAutomaticBackups so host task)
      (fun _ _ => True) w := by
  have hnone : ∀ w : Watched, w.Sound [] := fun _ => nofun
  rw [pruneAutomaticBackups]
  split
  · trivial
  refine wp_watch rfl (hnone w) fun w₁ r _ _ => ?_
  cases r with
  | error e => trivial
  | ok st =>
  dsimp only
  split
  · trivial
  refine wp_watch rfl (hnone _) fun w₂ r _ _ => ?_
  cases r with
  | error e => trivial
  | ok names =>
  refine Sem.wp_then (scanBackups_watched so host task names 0 [] (hnone _)) ?_
  rintro r w₃ hfound
  cases r with
  | error status => exact finishPruning_watched status false (hnone w₃)
  | ok found =>
  have h₃ := hfound found rfl
  dsimp only
  split
  · exact finishPruning_watched .ok false h₃
  · refine Sem.wp_then (recheckAll_watched _ h₃) fun status w₄ h₄ => ?_
    split
    · exact finishPruning_watched status false h₄
    · refine Sem.wp_then (removeAll_watched _ false (fun c hc => ?_) h₄) ?_
      · exact (List.mergeSort_perm found Candidate.le).mem_iff.mp (List.mem_of_mem_take hc)
      · rintro ⟨status', deleted⟩ w₅ h₅
        exact finishPruning_watched status' deleted h₅

/-! ## A backup that is pinned too late -/

/-- What happens when nobody interferes and nothing fails can happen in the watched world. -/
theorem Run.watched {α : Type} {G : Fs → Fs → Prop} {G' : Watched → Watched → Prop}
    {p p' : FileM α} {fs : Fs} (h : Sem.Run (files false Alone G) p fs p' fs') :
    ∀ w : Watched, w.fs = fs → ∃ w', w'.fs = fs' ∧ Sem.Run (watching false R G') p w p' w' := by
  induction h with
  | refl p fs => exact fun w hw => ⟨w, hw, .refl _ _⟩
  | env hrely _ ih =>
    intro w hw
    exact ih w (hw.trans (show _ = _ from hrely).symm)
  | call hstep _ ih =>
    rename_i op k r p' fs fs₁ fs' hrun
    intro w hw
    obtain ⟨w', hw', hrun'⟩ := ih (w.observe fs₁ op r) rfl
    exact ⟨w', hw', .call ⟨fs₁, hw.symm ▸ hstep, rfl⟩ hrun'⟩

/-- A call that does what it should. -/
theorem Run.acts {α : Type} {op : FileOp} {k : FileRes op → FileM α} {p' : FileM α} {w : Watched}
    {r : FileRes op} (hact : w.fs.act op = (r, fs'))
    (h : Sem.Run (watching false R G) (k r) (w.observe fs' op r) p' w') :
    Sem.Run (watching false R G) (sys op >>= k) w p' w' := by
  refine .call ⟨fs', ?_, rfl⟩ h
  have hstep : Fs.Step false w.fs op (w.fs.act op).1 (w.fs.act op).2 := .acts w.fs op
  rwa [hact] at hstep

/-- The older backup after the user has pinned it. -/
def pinnedInode : Inode := { backupInode 1 with mode := 0o400 }

/-- The directory then. -/
def pinnedBackups : Fs := { twoBackups with inodes := [pinnedInode, backupInode 2] }

theorem chmods_pinned : Chmods twoBackups pinnedBackups where
  dirs_eq := rfl
  cwd_eq := rfl
  log_eq := rfl
  inode i := by
    match i with
    | 0 => exact .inr ⟨backupInode 1, pinnedInode, rfl, rfl, rfl, .inr rfl, .inl rfl⟩
    | i + 1 => exact .inl rfl

theorem pinnedBackups_lookup : pinnedBackups.lookup 0 (backupName 1) = some (.file 0) :=
  (twoBackups_lookup 0 (backupName 1)).trans
    ((if_neg fun hbad => backupName_ne hbad.2).trans (if_pos ⟨rfl, rfl⟩))

/-- Both later checks accept the pinned backup. -/
theorem Run.recheck_pinned {w : Watched} (hw : w.fs = pinnedBackups) {c : Candidate}
    (hname : c.name = backupName 1) (hnode : c.node = .file 0) :
    Sem.Run (watching false R G) (recheckCandidate 0 c) w (.ret true)
      ⟨pinnedBackups, w.seen, some (backupName 1, 0o400)⟩ := by
  have hact : w.fs.act (.statAt 0 c.name) = (.ok (pinnedInode.stat 0), pinnedBackups) := by
    rw [hw, hname]
    simp only [Fs.act, pinnedBackups_lookup]
    rfl
  have hprivate : (pinnedInode.stat 0).isPrivate := ⟨rfl, rfl, rfl, .inl rfl⟩
  refine Run.acts hact ?_
  have hdone : decide ((pinnedInode.stat 0).isPrivate ∧ (pinnedInode.stat 0).node = c.node) = true :=
    decide_eq_true ⟨hprivate, hnode.symm⟩
  dsimp only
  rw [hdone, hname]
  exact .refl _ _

/-- Listing the two backups finds both, and leaves the older one as the surplus. -/
theorem Run.scan_two {w : Watched} (hw : w.fs = twoBackups) :
    ∃ found c w', Sem.Run (watching false R G)
        (scanBackups Sodium.toy plainHost keepOne (twoBackups.names 0) 0 []) w
        (.ret (.ok found)) w' ∧ w'.fs = twoBackups ∧ keepOne.retention < found.length ∧
      (found.mergeSort Candidate.le).take (found.length - keepOne.retention) = [c] ∧
      c.name = backupName 1 ∧ c.node = .file 0 := by
  have hperm : (twoBackups.names 0).Perm (twoBackups.names keepOne.dir) := List.Perm.refl _
  have horder : ∀ name ∈ twoBackups.names 0, keepOne.InOrder Sodium.toy twoBackups name :=
    fun name hname => twoBackups_inOrder hname
  have hwp : (files false Alone fun _ _ => True).wp
      (scanBackups Sodium.toy plainHost keepOne (twoBackups.names 0) 0 [])
      (fun r fs' => fs' = twoBackups ∧
        ScanResult Sodium.toy keepOne false twoBackups (twoBackups.names 0) [] r) twoBackups :=
    scanBackups_spec _ _ (fun _ => trivial) _ 0 []
  obtain ⟨r, fs', hrun, rfl, hok, herr⟩ := returns_files hwp
  obtain ⟨w', hw', hrun'⟩ := Run.watched hrun w hw
  cases r with
  | error status =>
    obtain ⟨name, hname, hbad⟩ := (herr status rfl).2 rfl (by rw [twoBackups_names]; decide)
    exact absurd (horder name hname) hbad
  | ok found =>
    obtain ⟨-, hfound⟩ := hok found rfl
    rw [List.nil_append] at hfound
    have hnames := PruneTask.surplus_eq hperm hfound
    rw [keepOne_surplus] at hnames
    obtain ⟨c, hsurplus, hname⟩ := List.map_eq_singleton_iff.mp hnames
    have hmore : keepOne.retention < found.length := by
      by_contra hfew
      rw [Nat.sub_eq_zero_of_le (Nat.not_lt.mp hfew), List.take_zero] at hsurplus
      cases hsurplus
    have hall := PruneTask.surplusOf Sodium.toy hperm (twoBackups.names_nodup 0) horder hfound
      (by decide) hmore
    rw [hsurplus] at hall
    obtain ⟨i, n, hnode, hlook, -⟩ := hall.holds c (List.mem_singleton.mpr rfl)
    rw [hname] at hlook
    have hzero : some (Node.file i) = some (.file 0) := hlook.symm.trans pinnedBackups_lookup
    exact ⟨found, c, w', hrun', hw', hmore, hsurplus, hname, hnode.trans (Option.some.inj hzero)⟩

/-- **A pinned backup is removed.** Pruning keeps one of two backups; the user pins the older
one after it was listed. Its final check finds it pinned, and it is unlinked all the same. -/
theorem pinned_backup_is_unlinked :
    ∃ w', Sem.Run (watching false UserActs fun _ _ => True)
        (pruneAutomaticBackups Sodium.toy plainHost keepOne) ⟨twoBackups, [], none⟩
        (.ret .ok) w' ∧
      twoBackups.lookup 0 (backupName 1) = some (.file 0) ∧
      w'.fs.lookup 0 (backupName 1) = none ∧ w'.checked = some (backupName 1, 0o400) := by
  obtain ⟨found, c, w₁, hscan, hw₁, hmore, hsurplus, hname, hnode⟩ :=
    Run.scan_two (R := UserActs) (G := fun _ _ => True) (w := ⟨twoBackups, [], none⟩) rfl
  have hpin : UserActs w₁ ⟨pinnedBackups, w₁.seen, w₁.checked⟩ :=
    ⟨hw₁.symm ▸ chmods_pinned, rfl, rfl⟩
  have hunlink : pinnedBackups.act (.unlinkAt 0 c.name) =
      (.ok (), (pinnedBackups.dropLink (some (.file 0))).unbind 0 (backupName 1)) := by
    rw [hname]
    simp only [Fs.act, pinnedBackups_lookup]
  refine ⟨⟨(pinnedBackups.dropLink (some (.file 0))).unbind 0 (backupName 1), w₁.seen,
    some (backupName 1, 0o400)⟩, ?_, pinnedBackups_lookup, ?_, rfl⟩
  · have hstat : twoBackups.act (.statDir 0) = (.ok ⟨true, 0o700⟩, twoBackups) := rfl
    have hlist : twoBackups.act (.listDir 0) = (.ok (twoBackups.names 0), twoBackups) := rfl
    rw [pruneAutomaticBackups, if_neg (by decide)]
    refine Run.acts hstat ?_
    dsimp only
    rw [if_neg (by decide)]
    refine Run.acts hlist ?_
    refine (hscan.bind _).trans ?_
    refine .env hpin ?_
    show Sem.Run _ (if found.length ≤ keepOne.retention then _ else _) _ _ _
    rw [if_neg (Nat.not_le.mpr hmore), hsurplus]
    have hfirst := Run.recheck_pinned (R := UserActs) (G := fun _ _ => True)
      (w := ⟨pinnedBackups, w₁.seen, w₁.checked⟩) rfl hname hnode
    have hsecond := Run.recheck_pinned (R := UserActs) (G := fun _ _ => True)
      (w := ⟨pinnedBackups, w₁.seen, some (backupName 1, 0o400)⟩) rfl hname hnode
    refine (((hfirst.bind _).trans (.refl _ _)).bind _).trans ?_
    refine ((hsecond.bind _).bind _).trans ?_
    refine Run.acts hunlink ?_
    refine Run.acts (r := .ok ()) rfl ?_
    refine Run.acts (r := .ok ()) rfl ?_
    exact .refl _ _
  · exact Fs.lookup_unbind.trans (if_pos ⟨rfl, rfl⟩)

end PVault
