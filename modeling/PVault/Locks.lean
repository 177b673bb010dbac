import PVault.Open

/-!
# Clients and the vault lock (`src/store.c`)

Writers take turns: `lock_vault` opens the lock file next to the vault and locks it with
`flock`, `unlock_vault` gives the lock back. Several clients share one `World`: the file
system, and the locks that are held.

A lock also remembers the file system as it was when it was taken, and `history` keeps what
every holder did: the file system when it took the lock and when it gave it back. No call can
see either of them.

* `underLock_spec` — the work done between `lock_vault` and `unlock_vault` is one section of
  the history, verified as if nobody else were there; without the lock nothing is done.
-/

namespace PVault

open Binary Conc

/-! ## Calls -/

/-- A lock that is held. -/
structure Lock where
  location : Location
  client : Nat
  /-- the file system when the lock was taken -/
  start : Fs

/-- What a client did while it held the lock. -/
structure Section where
  location : Location
  client : Nat
  start : Fs
  /-- the file system when the lock was given back -/
  stop : Fs

/-- The file system and the clients' locks. -/
structure World where
  fs : Fs
  locks : List Lock
  /-- most recent first -/
  history : List Section

/-- Some locks are given back. -/
def World.release (w : World) (gone : Lock → Bool) : World where
  fs := w.fs
  locks := w.locks.filter fun l => !gone l
  history := (w.locks.filter gone).map (fun l => ⟨l.location, l.client, l.start, w.fs⟩) ++ w.history

/-- The client's lock on the vault. -/
def Lock.isOf (c : Nat) (location : Location) (l : Lock) : Bool :=
  decide (l.location = location) && l.client == c

/-- The calls of the store, on files and on the lock file of a vault. -/
inductive SysOp : Type where
  | file (op : FileOp)
  /-- `openat(d, "<name>.lock", O_RDWR | O_CREAT | O_NOFOLLOW, 0600)` -/
  | openLock (location : Location)
  /-- `fstat` of the lock file -/
  | statLock (location : Location)
  /-- `fchmod(lock_fd, 0600)` -/
  | chmodLock (location : Location)
  /-- `flock(lock_fd, LOCK_EX | LOCK_NB)` -/
  | flock (location : Location)
  /-- `flock(lock_fd, LOCK_UN)` -/
  | unlock (location : Location)
  /-- `close(lock_fd)`, which gives the lock back -/
  | closeLock (location : Location)

/-- The answer to a call. -/
@[reducible] def SysRes : SysOp → Type
  | .file op => FileRes op
  | .statLock _ => Except Errno Stat
  | .openLock _ | .chmodLock _ | .flock _ | .unlock _ | .closeLock _ => Except Errno Unit

/-- A program of a client. -/
abbrev SysM : Type → Type := Prog SysRes

/-- A lock file as it should be. -/
def Stat.isLockFile (st : Stat) : Prop := st.regular = true ∧ st.own = true ∧ st.nlink = 1

instance (st : Stat) : Decidable st.isLockFile := inferInstanceAs (Decidable (_ ∧ _))

/-- **A call of the client `c` and its answer.** Nobody gets a lock that is held. A lock file
that is not as it should be counts as a fault. -/
inductive World.Step (faults : Bool) (c : Nat) : World → (op : SysOp) → SysRes op → World → Prop
  | file {w : World} {op : FileOp} {r : FileRes op} {fs' : Fs} (h : Fs.Step faults w.fs op r fs') :
      Step faults c w (.file op) r { w with fs := fs' }
  | openLock (w : World) (location : Location) : Step faults c w (.openLock location) (.ok ()) w
  | statLock (w : World) (location : Location) {st : Stat} (hst : st.isLockFile ∨ faults = true) :
      Step faults c w (.statLock location) (.ok st) w
  | chmodLock (w : World) (location : Location) : Step faults c w (.chmodLock location) (.ok ()) w
  | flock {w : World} {location : Location} (hfree : ∀ l ∈ w.locks, l.location ≠ location) :
      Step faults c w (.flock location) (.ok ())
        { w with locks := ⟨location, c, w.fs⟩ :: w.locks }
  | busy {w : World} {l : Lock} (hl : l ∈ w.locks) :
      Step faults c w (.flock l.location) (.error .ewouldblock) w
  | unlock (w : World) (location : Location) :
      Step faults c w (.unlock location) (.ok ()) (w.release (Lock.isOf c location))
  | closeLock (w : World) (location : Location) (r : Except Errno Unit)
      (hr : faults = false → r = .ok ()) :
      Step faults c w (.closeLock location) r (w.release (Lock.isOf c location))
  | openLockFails (w : World) (location : Location) (e : Errno) (hfaults : faults = true) :
      Step faults c w (.openLock location) (.error e) w
  | statLockFails (w : World) (location : Location) (e : Errno) (hfaults : faults = true) :
      Step faults c w (.statLock location) (.error e) w
  | chmodLockFails (w : World) (location : Location) (e : Errno) (hfaults : faults = true) :
      Step faults c w (.chmodLock location) (.error e) w
  | flockFails (w : World) (location : Location) (e : Errno) (hfaults : faults = true) :
      Step faults c w (.flock location) (.error e) w
  | unlockFails (w : World) (location : Location) (e : Errno) (hfaults : faults = true) :
      Step faults c w (.unlock location) (.error e) w

/-- Every call is answered, also when none fails. -/
theorem World.Step.answers (faults : Bool) (c : Nat) (w : World) (op : SysOp) :
    ∃ r w', World.Step faults c w op r w' := by
  cases op with
  | file op => exact ⟨_, _, .file (.acts w.fs op)⟩
  | openLock location => exact ⟨_, _, .openLock w location⟩
  | statLock location =>
    have hst : Stat.isLockFile ⟨.other, true, true, 1, 0o600, 0⟩ := by decide
    exact ⟨_, _, .statLock w location (.inl hst)⟩
  | chmodLock location => exact ⟨_, _, .chmodLock w location⟩
  | flock location =>
    by_cases hfree : ∀ l ∈ w.locks, l.location ≠ location
    · exact ⟨_, _, .flock hfree⟩
    · obtain ⟨l, hl, hheld⟩ : ∃ l ∈ w.locks, l.location = location := by
        by_contra hnone
        exact hfree fun l hl heq => hnone ⟨l, hl, heq⟩
      subst hheld
      exact ⟨_, _, .busy hl⟩
  | unlock location => exact ⟨_, _, .unlock w location⟩
  | closeLock location => exact ⟨_, _, .closeLock w location (.ok ()) fun _ => rfl⟩

/-- What calls do when none fails, they may do anyway. -/
theorem World.Step.mayFail {c : Nat} {w w' : World} {op : SysOp} {r : SysRes op}
    (h : World.Step false c w op r w') : World.Step true c w op r w' := by
  cases h with
  | file h => exact .file h.mayFail
  | openLock => exact .openLock _ _
  | statLock _ hst => exact .statLock _ _ (.inl (hst.resolve_right nofun))
  | chmodLock => exact .chmodLock _ _
  | flock hfree => exact .flock hfree
  | busy hl => exact .busy hl
  | unlock => exact .unlock _ _
  | closeLock => exact .closeLock _ _ _ nofun
  | openLockFails _ _ hfaults => cases hfaults
  | statLockFails _ _ hfaults => cases hfaults
  | chmodLockFails _ _ hfaults => cases hfaults
  | flockFails _ _ hfaults => cases hfaults
  | unlockFails _ _ hfaults => cases hfaults

/-- The programs of the client `c`, next to others that act within `R`. -/
def system (faults : Bool) (c : Nat) (R G : World → World → Prop) : Sem SysRes World where
  step := World.Step faults c
  rely := R
  guar := G
  diverges := faults = true

/-! ## Programs -/

/-- A call. -/
abbrev ask (op : SysOp) : SysM (SysRes op) := Prog.perform op

/-- A program that works on files only. -/
def onFiles {α : Type} (p : FileM α) : SysM α := p.lift SysOp.file fun _ r => r

/-- The exit of `lock_vault` after the lock file was opened. -/
def abandonLock {α : Type} (location : Location) (status : PvStatus) : SysM (Except PvStatus α) := do
  let _ ← ask (.closeLock location)
  onFiles closeStoreLocation
  return .error status

/-- `lock_vault`. -/
def lockVault (path : Bytes) : SysM (Except PvStatus Location) := do
  match ← onFiles (openStoreLocation path) with
  | .error status => return .error status
  | .ok location =>
    if (lockName location.name).length ≥ pathMax then
      onFiles closeStoreLocation
      return .error .errLimit
    else
      match ← ask (.openLock location) with
      | .error _ =>
        onFiles closeStoreLocation
        return .error .errIo
      | .ok _ =>
        match ← ask (.statLock location) with
        | .error _ => abandonLock location .errIo
        | .ok st =>
          if ¬st.isLockFile then
            abandonLock location .errIo
          else
            match ← ask (.chmodLock location) with
            | .error _ => abandonLock location .errIo
            | .ok _ =>
              match ← ask (.flock location) with
              | .error e => abandonLock location (if e = .ewouldblock then .errLocked else .errIo)
              | .ok _ => return .ok location

/-- `unlock_vault`. -/
def unlockVault (location : Location) : SysM Unit := do
  let _ ← ask (.unlock location)
  let _ ← ask (.closeLock location)
  onFiles closeStoreLocation

/-- Work between `lock_vault` and `unlock_vault`; `refused` is what the caller returns without
the lock. -/
def underLock {α : Type} (path : Bytes) (refused : PvStatus → α) (body : Location → FileM α) :
    SysM α := do
  match ← lockVault path with
  | .error status => return refused status
  | .ok location =>
    let r ← onFiles (body location)
    unlockVault location
    return r

/-! ## The others -/

/-- The locks of a client. -/
def World.locksOf (w : World) (c : Nat) : List Lock := w.locks.filter fun l => l.client == c

/-- The client has no lock. -/
def World.Idle (w : World) (c : Nat) : Prop := w.locksOf c = []

/-- What the client `c` may count on: nobody else takes or gives back its locks, or adds to
its history, and while it holds a lock nobody else changes a file. -/
structure Neighbours (c : Nat) (R : World → World → Prop) : Prop where
  refl : ∀ w, R w w
  trans : ∀ a b d, R a b → R b d → R a d
  locks : ∀ a b, R a b → b.locksOf c = a.locksOf c
  held : ∀ a b, R a b → ¬a.Idle c → b.fs = a.fs
  history : ∀ a b, R a b → ∃ news, b.history = news ++ a.history ∧ ∀ s ∈ news, s.client ≠ c

/-- There are no others. -/
theorem neighbours_none (c : Nat) : Neighbours c fun a b => b = a where
  refl _ := rfl
  trans _ _ _ h h' := h'.trans h
  locks a b h := by rw [show b = a from h]
  held a b h _ := by rw [show b = a from h]
  history a b h := ⟨[], by rw [show b = a from h]; rfl, nofun⟩

/-- **What a client does to the world**: outside the lock it acts within `outside`; between
taking a lock and giving it back, within what `work` allows for that lock. -/
inductive Acts (c : Nat) (outside : Fs → Fs → Prop) (work : Location → Fs → Fs → Fs → Prop) :
    World → World → Prop
  | idle (w : World) : Acts c outside work w w
  | outside {w : World} {fs' : Fs} (h : outside w.fs fs') : Acts c outside work w { w with fs := fs' }
  | acquire {w : World} {location : Location} (hfree : ∀ l ∈ w.locks, l.location ≠ location) :
      Acts c outside work w { w with locks := ⟨location, c, w.fs⟩ :: w.locks }
  | work {w : World} {l : Lock} {fs' : Fs} (hl : l ∈ w.locks) (hc : l.client = c)
      (h : work l.location l.start w.fs fs') : Acts c outside work w { w with fs := fs' }
  | release (w : World) (location : Location) :
      Acts c outside work w (w.release (Lock.isOf c location))

/-- A file system that is seen in some world the others lead to. -/
def Seen (R : World → World → Prop) (w : World) (fs : Fs) : Prop := ∃ w₁, R w w₁ ∧ w₁.fs = fs

section Specs

variable {faults : Bool} {c : Nat} {R : World → World → Prop} {outside : Fs → Fs → Prop}
  {work : Location → Fs → Fs → Fs → Prop} {w : World} {α β : Type}
variable {location : Location} {Q : Location → Fs → α → Fs → Prop} {path : Bytes} {l : Lock}
  {w₁ : World} {refused : PvStatus → α}

/-- A client without locks has none to give back. -/
theorem World.release_idle (h : w.Idle c) :
    w.release (Lock.isOf c location) = w := by
  have hother : ∀ l ∈ w.locks, Lock.isOf c location l = false := fun l hl => by
    simp [Lock.isOf, List.filter_eq_nil_iff.mp h l hl]
  have hnone : w.locks.filter (Lock.isOf c location) = [] :=
    List.filter_eq_nil_iff.mpr fun l hl => by simp [hother l hl]
  have hall : w.locks.filter (fun l => !Lock.isOf c location l) = w.locks :=
    List.filter_eq_self.mpr fun l hl => by simp [hother l hl]
  rw [World.release, hnone, hall]
  rfl

/-- **Looking at files** without the lock: the others may act in between. -/
theorem wp_look (hR : Neighbours c R) {p : FileM α} {Q : α → Fs → Prop}
    (h : (files faults (fun a b => Seen R w a → Seen R w b) fun a b => b = a).wp p Q w.fs) :
    (system faults c R (Acts c outside work)).wp (onFiles p) (fun a w' => R w w' ∧ Q a w'.fs) w := by
  refine Sem.wp_lift (S := files faults (fun a b => Seen R w a → Seen R w b) fun a b => b = a)
    World.fs (R w) id (fun w₁ w₂ h₁ h₂ => ?_) (fun w₁ op r w₂ h₁ hstep => ?_) (hR.refl w) h
  · have h₂ := hR.trans _ _ _ h₁ h₂
    exact ⟨h₂, fun _ => ⟨w₂, h₂, rfl⟩⟩
  · cases hstep with
    | file hstep =>
      rename_i fs'
      refine ⟨hstep, fun hsame => ?_⟩
      obtain rfl : fs' = w₁.fs := hsame
      exact ⟨h₁, .idle w₁⟩

/-- **A call on the lock file** leaves the world as it is. -/
theorem wp_lockCall {op : SysOp} {k : SysRes op → SysM β} {Q : β → World → Prop}
    (hsame : ∀ w₁ r w₂, World.Step faults c w₁ op r w₂ → w₂ = w₁)
    (h : ∀ w₁ r, R w w₁ → World.Step faults c w₁ op r w₁ →
      (system faults c R (Acts c outside work)).wp (k r) Q w₁) :
    (system faults c R (Acts c outside work)).wp (ask op >>= k) Q w := by
  intro w₁ hrely r w₂ hstep
  obtain rfl := hsame w₁ r w₂ hstep
  exact ⟨.idle w₂, h w₂ r hrely hstep⟩

theorem wp_close_location (hR : Neighbours c R) :
    (system faults c R (Acts c outside work)).wp (onFiles closeStoreLocation)
      (fun _ w' => R w w') w :=
  Sem.wp_mono (wp_look hR (Q := fun _ _ => True)
    (wp_close (fun _ => rfl) fun _ _ _ _ => trivial)) fun _ _ h => h.1

theorem Neighbours.idle (hR : Neighbours c R) {w' : World} (h : R w w') (hidle : w.Idle c) :
    w'.Idle c := (hR.locks _ _ h).trans hidle

/-- Closing a lock file without having the lock. -/
theorem wp_closeLock (hR : Neighbours c R) (hidle : w.Idle c) {k : Except Errno Unit → SysM β}
    {Q : β → World → Prop}
    (h : ∀ w₁ r, R w w₁ → (system faults c R (Acts c outside work)).wp (k r) Q w₁) :
    (system faults c R (Acts c outside work)).wp (ask (.closeLock location) >>= k) Q w := by
  intro w₁ hrely r w₂ hstep
  cases hstep with
  | closeLock =>
    rw [World.release_idle (hR.idle hrely hidle)]
    exact ⟨.idle w₁, h w₁ r hrely⟩

theorem abandonLock_spec (hR : Neighbours c R) (hidle : w.Idle c) {status : PvStatus} :
    (system faults c R (Acts c outside work)).wp (abandonLock location status : SysM (Except PvStatus α))
      (fun r w' => R w w' ∧ r = .error status) w := by
  refine wp_closeLock hR hidle fun w₁ _ hrely => ?_
  refine Sem.wp_then (wp_close_location hR) fun _ w₂ hrely₂ => ?_
  exact ⟨hR.trans _ _ _ hrely hrely₂, rfl⟩

/-- What `lock_vault` may answer. -/
def LockResult (faults : Bool) (c : Nat) (R : World → World → Prop) (path : Bytes) (w : World) :
    Except PvStatus Location → World → Prop
  | .error status, w' => R w w' ∧ ¬status.Committed ∧
      (faults = false → ∀ location, location.name.length + 13 < pathMax →
        (∀ w₁, R w w₁ → w₁.fs.LeadsTo path location) →
        status = .errLocked ∧ ∃ w₁, R w w₁ ∧ ∃ l ∈ w₁.locks, l.location = location)
  | .ok location, w' => ∃ w₀ w₁, R w w₀ ∧ w₀.fs.At path location ∧
      (∃ w₂, R w w₂ ∧ w₂.fs.Hosts location) ∧ R w w₁ ∧
      (∀ l ∈ w₁.locks, l.location ≠ location) ∧
      w' = { w₁ with locks := ⟨location, c, w₁.fs⟩ :: w₁.locks }

/-- **Taking the lock.** -/
theorem lockVault_spec (hR : Neighbours c R) (hidle : w.Idle c) :
    (system faults c R (Acts c outside work)).wp (lockVault path) (LockResult faults c R path w) w := by
  refine Sem.wp_then (wp_look hR (openStoreLocation_spec (fun _ => rfl) (fun _ h => h)
    fun _ _ _ h h' hs => h' (h hs))) ?_
  rintro r w₁ ⟨hrely, -, hresult⟩
  have hidle₁ := hR.idle hrely hidle
  cases r with
  | error status =>
    refine ⟨hrely, hresult.1, fun hfalse location _ hleads => ?_⟩
    refine absurd (fun fs' h => ?_) (hresult.2 hfalse location)
    obtain ⟨w₂, h₂, rfl⟩ := h ⟨w, hR.refl w, rfl⟩
    exact hleads w₂ h₂
  | ok location =>
  obtain ⟨parent, fs₀, hsplit, hseen, hresolve, fs', dir, hseen', hdir, hparent⟩ := hresult
  obtain ⟨w₀, h₀, rfl⟩ := hseen ⟨w, hR.refl w, rfl⟩
  obtain ⟨w', h', rfl⟩ := hseen' ⟨w, hR.refl w, rfl⟩
  have hhosts : ∃ w₂, R w w₂ ∧ w₂.fs.Hosts location := ⟨w', h', dir, hdir, hparent⟩
  have hat : w₀.fs.At path location := ⟨parent, hsplit, hresolve⟩
  -- A client that leaves early has changed nothing.
  have hleave : ∀ {w₂ status}, R w w₂ → ¬status.Committed → (faults = false →
      ∀ location', location'.name.length + 13 < pathMax →
        (∀ w₃, R w w₃ → w₃.fs.LeadsTo path location') →
        status = .errLocked ∧ ∃ w₃, R w w₃ ∧ ∃ l ∈ w₃.locks, l.location = location') →
      (system faults c R (Acts c outside work)).wp (abandonLock location status)
        (LockResult faults c R path w) w₂ := by
    intro w₂ status h₂ hbad hwhy
    refine Sem.wp_mono (abandonLock_spec hR (hR.idle h₂ hidle)) ?_
    rintro r w₃ ⟨h₃, rfl⟩
    exact ⟨hR.trans _ _ _ h₂ h₃, hbad, hwhy⟩
  dsimp only
  split
  · next hlong =>
    refine Sem.wp_then (wp_close_location hR) fun _ w₂ h₂ => ?_
    refine ⟨hR.trans _ _ _ hrely h₂, by decide, fun _ location' hshort hleads => ?_⟩
    obtain rfl := (hleads w₀ h₀).at.unique hat
    rw [lockName, List.length_append] at hlong
    simp only [List.length_cons, List.length_nil] at hlong
    omega
  refine wp_lockCall (fun _ _ _ hstep => by cases hstep <;> rfl) fun w₂ r h₂ hstep => ?_
  have h₂ := hR.trans _ _ _ hrely h₂
  cases r with
  | error e =>
    refine Sem.wp_then (wp_close_location hR) fun _ w₃ h₃ => ?_
    refine ⟨hR.trans _ _ _ h₂ h₃, by decide, fun hfalse => ?_⟩
    cases hstep with
    | openLockFails _ _ hfaults => exact absurd (hfalse.symm.trans hfaults) nofun
  | ok _ =>
  refine wp_lockCall (fun _ _ _ hstep => by cases hstep <;> rfl) fun w₃ r h₃ hstep => ?_
  have h₃ := hR.trans _ _ _ h₂ h₃
  cases r with
  | error e =>
    refine hleave h₃ (by decide) fun hfalse => ?_
    cases hstep with
    | statLockFails _ _ hfaults => exact absurd (hfalse.symm.trans hfaults) nofun
  | ok st =>
  dsimp only
  split
  · next hbad =>
    refine hleave h₃ (by decide) fun hfalse => ?_
    cases hstep with
    | statLock _ hst =>
      rcases hst with hst | hfaults
      · exact absurd hst hbad
      · exact absurd (hfalse.symm.trans hfaults) nofun
  refine wp_lockCall (fun _ _ _ hstep => by cases hstep <;> rfl) fun w₄ r h₄ hstep => ?_
  have h₄ := hR.trans _ _ _ h₃ h₄
  cases r with
  | error e =>
    refine hleave h₄ (by decide) fun hfalse => ?_
    cases hstep with
    | chmodLockFails _ _ hfaults => exact absurd (hfalse.symm.trans hfaults) nofun
  | ok _ =>
  intro w₅ h₅ r w₆ hstep
  have h₅ := hR.trans _ _ _ h₄ h₅
  cases hstep with
  | flock hfree => exact ⟨.acquire hfree, w₀, w₅, h₀, hat, hhosts, h₅, hfree, rfl⟩
  | busy hl =>
    refine ⟨.idle _, hleave h₅ (by decide) fun _ location' _ hleads => ⟨rfl, _, h₅, _, hl, ?_⟩⟩
    exact hat.unique (hleads w₀ h₀).at
  | flockFails e _ hfaults =>
    refine ⟨.idle _, hleave h₅ ?_ fun hfalse => absurd (hfalse.symm.trans hfaults) nofun⟩
    split <;> decide

/-- While the client holds the lock `l`, only the others add to the history. -/
structure Inside (c : Nat) (l : Lock) (w w' : World) : Prop where
  locks_eq : w'.locksOf c = [l]
  history_eq : ∃ news, w'.history = news ++ w.history ∧ ∀ s ∈ news, s.client ≠ c

theorem Inside.later (hR : Neighbours c R) {w₂ : World} (h : Inside c l w w₁) (hrely : R w₁ w₂) :
    Inside c l w w₂ ∧ w₂.fs = w₁.fs := by
  refine ⟨⟨(hR.locks _ _ hrely).trans h.locks_eq, ?_⟩, hR.held _ _ hrely ?_⟩
  · obtain ⟨news, hnews, hmine⟩ := h.history_eq
    obtain ⟨more, hmore, hmine'⟩ := hR.history _ _ hrely
    refine ⟨more ++ news, by rw [hmore, hnews, List.append_assoc], fun s hs => ?_⟩
    rcases List.mem_append.mp hs with hs | hs
    · exact hmine' s hs
    · exact hmine s hs
  · rw [World.Idle, h.locks_eq]
    exact nofun

/-- **Working under the lock**, as if nobody else were there. -/
theorem wp_work (hR : Neighbours c R) (hlocks : w.locksOf c = [l]) {p : FileM α}
    {Q : α → Fs → Prop} (h : (files faults Alone (work l.location l.start)).wp p Q w.fs) :
    (system faults c R (Acts c outside work)).wp (onFiles p)
      (fun a w' => Inside c l w w' ∧ Q a w'.fs) w := by
  have hmem : l ∈ w.locksOf c := by
    rw [hlocks]
    exact List.mem_singleton_self l
  have hclient : l.client = c := by simpa using (List.mem_filter.mp hmem).2
  refine Sem.wp_lift (S := files faults Alone (work l.location l.start)) World.fs (Inside c l w) id
    (fun w₁ w₂ h₁ h₂ => h₁.later hR h₂) (fun w₁ op r w₂ h₁ hstep => ?_) ⟨hlocks, [], rfl, nofun⟩ h
  cases hstep with
  | file hstep =>
    refine ⟨hstep, fun hwork => ⟨⟨h₁.locks_eq, h₁.history_eq⟩, .work (l := l) ?_ hclient hwork⟩⟩
    have hl : l ∈ w₁.locksOf c := by
      rw [h₁.locks_eq]
      exact List.mem_singleton_self l
    exact (List.mem_filter.mp hl).1

/-- The world after the only lock of the client was given back. -/
theorem World.release_only (h : w.locksOf c = [l]) :
    (w.release (Lock.isOf c l.location)).Idle c ∧
      (w.release (Lock.isOf c l.location)).history = ⟨l.location, c, l.start, w.fs⟩ :: w.history := by
  have hclient : l.client = c := by
    have hmem : l ∈ w.locksOf c := by
      rw [h]
      exact List.mem_singleton_self l
    simpa using (List.mem_filter.mp hmem).2
  have hgone : w.locks.filter (Lock.isOf c l.location) = [l] := by
    have hsplit : w.locks.filter (Lock.isOf c l.location) =
        (w.locksOf c).filter fun l' => decide (l'.location = l.location) := by
      rw [World.locksOf, List.filter_filter]
      rfl
    rw [hsplit, h]
    simp
  refine ⟨?_, ?_⟩
  · rw [World.Idle, World.locksOf, World.release]
    simp only [List.filter_filter]
    refine List.filter_eq_nil_iff.mpr fun l' hl' => ?_
    -- A lock of the client is the one that was given back.
    by_cases hc : l'.client = c
    · have hmem : l' ∈ w.locksOf c := List.mem_filter.mpr ⟨hl', by simp [hc]⟩
      rw [h, List.mem_singleton] at hmem
      subst hmem
      simp [Lock.isOf, hc]
    · simp [hc]
  · rw [World.release]
    simp only [hgone, List.map_cons, List.map_nil, hclient]
    rfl

/-- The lock was given back, and its section is in the history. -/
structure Released (c : Nat) (R : World → World → Prop) (l : Lock) (before : List Section) (fs : Fs)
    (w' : World) : Prop where
  /-- the world right after that -/
  after : ∃ w₁, R w₁ w' ∧ w₁.fs = fs ∧ w₁.Idle c ∧ ∃ news, (∀ s ∈ news, s.client ≠ c) ∧
    w₁.history = ⟨l.location, c, l.start, fs⟩ :: (news ++ before)

theorem Inside.release (h : Inside c l w w₁) :
    (w₁.release (Lock.isOf c l.location)).Idle c ∧ ∃ news, (∀ s ∈ news, s.client ≠ c) ∧
      (w₁.release (Lock.isOf c l.location)).history =
        ⟨l.location, c, l.start, w₁.fs⟩ :: (news ++ w.history) := by
  obtain ⟨hidle, hhistory⟩ := World.release_only h.locks_eq
  obtain ⟨news, hnews, hmine⟩ := h.history_eq
  exact ⟨hidle, news, hmine, by rw [hhistory, hnews]⟩

/-- **Giving the lock back**: if `flock` fails, `close` does it. -/
theorem unlockVault_spec (hR : Neighbours c R) {w₀ : World} (h : Inside c l w₀ w) :
    (system faults c R (Acts c outside work)).wp (unlockVault l.location)
      (fun _ w' => Released c R l w₀.history w.fs w') w := by
  intro w₁ h₁ r w₂ hstep
  obtain ⟨hin, hfs⟩ := h.later hR h₁
  cases hstep with
  | unlock =>
    obtain ⟨hidle, hhistory⟩ := hin.release
    rw [hfs] at hhistory
    refine ⟨.release _ _, wp_closeLock hR hidle fun w₃ _ h₃ => ?_⟩
    exact Sem.wp_mono (wp_close_location hR) fun _ w₄ h₄ =>
      ⟨_, hR.trans _ _ _ h₃ h₄, hfs, hidle, hhistory⟩
  | unlockFails e hfaults =>
    refine ⟨.idle _, fun w₃ h₃ r w₄ hstep => ?_⟩
    obtain ⟨hin₃, hfs₃⟩ := hin.later hR h₃
    cases hstep with
    | closeLock =>
      obtain ⟨hidle, hhistory⟩ := hin₃.release
      rw [hfs₃, hfs] at hhistory
      refine ⟨.release _ _, ?_⟩
      exact Sem.wp_mono (wp_close_location hR) fun _ w₄ h₄ =>
        ⟨_, h₄, hfs₃.trans hfs, hidle, hhistory⟩

/-- What comes of work under the lock: without the lock nothing happened, with it `Q` relates
the file systems at its two ends. -/
inductive LockOutcome (faults : Bool) (c : Nat) (R : World → World → Prop) (path : Bytes)
    (refused : PvStatus → α) (Q : Location → Fs → α → Fs → Prop) (w : World) : α → World → Prop
  | refused {status : PvStatus} {w' : World} (h : LockResult faults c R path w (.error status) w') :
      LockOutcome faults c R path refused Q w (refused status) w'
  | done {location : Location} {a : α} {fs : Fs} {w₀ w₁ w' : World} (h₀ : R w w₀)
      (hat : w₀.fs.At path location) (hhosts : ∃ w₂, R w w₂ ∧ w₂.fs.Hosts location) (h₁ : R w w₁)
      (hfree : ∀ l ∈ w₁.locks, l.location ≠ location)
      (hQ : Q location w₁.fs a fs) (hafter : Released c R ⟨location, c, w₁.fs⟩ w₁.history fs w') :
      LockOutcome faults c R path refused Q w a w'

/-- The first lock of a client is its only one. -/
theorem World.Idle.locksOf_taken (h : w₁.Idle c) (location : Location) :
    World.locksOf { w₁ with locks := ⟨location, c, w₁.fs⟩ :: w₁.locks } c = [⟨location, c, w₁.fs⟩] := by
  have hnone : w₁.locks.filter (fun l => l.client == c) = [] := h
  rw [World.locksOf, List.filter_cons_of_pos (by simp), hnone]

/-- **Work under the lock** is verified as if nobody else were there. -/
theorem underLock_spec {body : Location → FileM α} (hR : Neighbours c R) (hidle : w.Idle c)
    (hbody : ∀ location w₀ w₁, R w w₀ → w₀.fs.At path location → R w w₁ →
      (files faults Alone (work location w₁.fs)).wp (body location) (Q location w₁.fs) w₁.fs) :
    (system faults c R (Acts c outside work)).wp (underLock path refused body)
      (LockOutcome faults c R path refused Q w) w := by
  refine Sem.wp_then (lockVault_spec hR hidle) ?_
  intro r w₂ hlock
  cases r with
  | error status => exact .refused hlock
  | ok location =>
    obtain ⟨w₀, w₁, h₀, hat, hhosts, h₁, hfree, rfl⟩ := hlock
    refine Sem.wp_then (wp_work hR ((hR.idle h₁ hidle).locksOf_taken location) (hbody location w₀ w₁ h₀ hat h₁)) ?_
    rintro a w₃ ⟨hin, hQ⟩
    refine Sem.wp_then (unlockVault_spec hR hin) fun _ w₄ hafter => ?_
    exact .done h₀ hat hhosts h₁ hfree hQ hafter

/-- The outcome does not depend on what the others do afterwards. -/
theorem LockOutcome.later {a : α} {w₂ : World} (hR : Neighbours c R)
    (h : LockOutcome faults c R path refused Q w a w₁) (hrely : R w₁ w₂) :
    LockOutcome faults c R path refused Q w a w₂ := by
  cases h with
  | refused h => exact .refused ⟨hR.trans _ _ _ h.1 hrely, h.2⟩
  | done h₀ hat hhosts h₁ hfree hQ hafter =>
    obtain ⟨w₃, h₃, hrest⟩ := hafter.after
    exact .done h₀ hat hhosts h₁ hfree hQ ⟨w₃, hR.trans _ _ _ h₃ hrely, hrest⟩

/-- **The outcome when there is nobody else.** -/
theorem LockOutcome.alone {a : α} {w' : World}
    (h : LockOutcome faults c (fun a b => b = a) path refused Q w a w') :
    (∃ status, a = refused status ∧ w' = w ∧ ¬status.Committed ∧
      (faults = false → ∀ location, location.name.length + 13 < pathMax →
        w.fs.LeadsTo path location → ∃ l ∈ w.locks, l.location = location)) ∨
    ∃ location, w.fs.LeadsTo path location ∧ Q location w.fs a w'.fs ∧ w'.Idle c := by
  cases h with
  | refused h =>
    obtain ⟨rfl, hbad, hwhy⟩ := h
    refine .inl ⟨_, rfl, rfl, hbad, fun hfalse location hshort hleads => ?_⟩
    obtain ⟨-, w₁, rfl, hheld⟩ := hwhy hfalse location hshort (by rintro w₁ rfl; exact hleads)
    exact hheld
  | done h₀ hat hhosts h₁ hfree hQ hafter =>
    obtain ⟨w₂, rfl, hhosts⟩ := hhosts
    subst h₀ h₁
    obtain ⟨w₃, rfl, rfl, hidle, -⟩ := hafter.after
    exact .inr ⟨_, hat.leadsTo hhosts, hQ, hidle⟩

end Specs

end PVault
