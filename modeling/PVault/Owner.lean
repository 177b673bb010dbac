import PVault.Clipboard

/-!
# The owner process (`src/clipboard.c`)

The worker of the clipboard hand-off spawns the program that owns the clipboard, and is its
parent: until the worker has reaped it with `waitpid`, the pid of the owner is not given to
another process. `Clipboard.lean` treats `owner_has_exited`, `terminate_owner` and the
`waitpid` after a poll as single calls; here they are programs over `waitpid`, `kill` and
`pidfd_send_signal`, and `workerLoop` is run with them.

* `ownerCalls_spec` — what each of these programs achieves, whenever the owner exits.
* `worker_reaps_owner` — no signal is sent to a reaped owner, and the worker does not return
  before it has reaped the owner, unless `SIGKILL` could not be sent.
-/

namespace PVault

open Conc

/-! ## Processes -/

/-- The owner, as its parent sees it. -/
inductive OwnerState where
  | absent
  | running
  /-- terminated, and not yet waited for -/
  | exited
  | reaped
  deriving DecidableEq, Repr

/-- The pid belongs to the owner. -/
def OwnerState.Holds (s : OwnerState) : Prop := s = .running ∨ s = .exited

inductive Signal where
  | sigterm
  | sigkill
  deriving DecidableEq, Repr

/-- `waitpid`: `EINTR`, zero, the pid of the owner, or `ECHILD`. -/
inductive WaitAnswer where
  | interrupted
  | unchanged
  | reaped
  | noChild
  deriving DecidableEq, Repr

/-- The calls of the worker. -/
inductive ProcOp where
  /-- a call that does not concern the owner once it is spawned -/
  | other (op : ClipOp)
  /-- `waitpid(owner, ...)`, with `WNOHANG` or not -/
  | waitpid (nohang : Bool)
  | pidfdSendSignal (signal : Signal)
  | kill (signal : Signal)
  | nanosleep

/-- The answer to a call. -/
abbrev ProcRes : ProcOp → Type
  | .other op => ClipRes op
  | .waitpid _ => WaitAnswer
  | .pidfdSendSignal _ | .kill _ => Bool
  | .nanosleep => Unit

/-- Programs of the worker. -/
abbrev ProcM : Type → Type := Prog ProcRes

/-- A call. -/
abbrev proc (op : ProcOp) : ProcM (ProcRes op) := Prog.perform op

/-- The owner, and what has happened to it so far. -/
structure OwnerWorld where
  owner : OwnerState
  /-- what the owner was at each call that signals it, the last one first -/
  signalled : List OwnerState
  /-- a `kill(owner, SIGKILL)` has failed -/
  killFailed : Bool
  deriving DecidableEq, Repr

/-- A call. `waitpid` answers as documented, with the default disposition of `SIGCHLD`; any
other call may answer anything. -/
def OwnerWorld.Step (w : OwnerWorld) : (op : ProcOp) → ProcRes op → OwnerWorld → Prop
  | .other (.spawnOwner _), true, w' => w' = { w with owner := .running }
  | .waitpid nohang, .unchanged, w' => nohang = true ∧ w.owner = .running ∧ w' = w
  | .waitpid _, .reaped, w' => w.owner = .exited ∧ w' = { w with owner := .reaped }
  | .waitpid _, .noChild, w' => ¬w.owner.Holds ∧ w' = w
  | .pidfdSendSignal _, _, w' => w' = { w with signalled := w.owner :: w.signalled }
  | .kill signal, sent, w' => w' =
    { w with
      signalled := w.owner :: w.signalled
      killFailed := w.killFailed || (decide (signal = .sigkill) && !sent) }
  | _, _, w' => w' = w

/-- The owner may exit at any time. -/
def OwnerWorld.Exits (w w' : OwnerWorld) : Prop :=
  w' = w ∨ w.owner = .running ∧ w' = { w with owner := .exited }

/-- Every signal so far met the owner. -/
def OwnerWorld.Safe (w : OwnerWorld) : Prop := ∀ s ∈ w.signalled, s.Holds

/-- The runs of the worker. Each call keeps `Safe`. -/
def owning : Sem ProcRes OwnerWorld where
  step := OwnerWorld.Step
  rely := OwnerWorld.Exits
  guar w w' := w.Safe → w'.Safe
  diverges := True

/-- There is no owner left behind. -/
def OwnerWorld.Gone (w : OwnerWorld) : Prop := ¬w.owner.Holds ∨ w.killFailed = true

/-! ## Waiting and signalling -/

section Programs

variable (patience : Nat)

/-- `waitpid_nointr`. -/
def waitpidNointr (nohang : Bool) : ProcM WaitAnswer :=
  Prog.iterate (fun _ : Unit => do
    let answer ← proc (.waitpid nohang)
    return if answer = .interrupted then .inl () else .inr answer) patience ()

/-- `owner_has_exited`. -/
def ownerHasExited : ProcM Bool := do
  let answer ← waitpidNointr patience true
  return decide (answer = .reaped ∨ answer = .noChild)

/-- Signal the owner, through its descriptor if it has one: did the last call succeed? -/
def signalOwner (pidfd : Bool) (signal : Signal) : ProcM Bool :=
  if pidfd = true then do
    let sent ← proc (.pidfdSendSignal signal)
    if sent = true then return true else proc (.kill signal)
  else
    proc (.kill signal)

/-- `PV_CLIP_OWNER_GRACE_MS`. -/
def pvClipOwnerGraceMs : Nat := 250

/-- The loop of `terminate_owner`, with the number of passes left: has the owner exited? -/
def awaitExit : Nat → ProcM Bool
  | 0 => return false
  | passes + 1 => do
    let exited ← ownerHasExited patience
    if exited = true then
      return true
    else
      proc .nanosleep
      awaitExit passes

/-- `terminate_owner`. A pass of its loop takes 10 ms. -/
def terminateOwner (pidfd : Bool) : ProcM Unit := do
  let exited ← ownerHasExited patience
  if exited = true then
    return ()
  else
    let _ ← signalOwner pidfd .sigterm
    let exited ← awaitExit patience (pvClipOwnerGraceMs / 10)
    if exited = true then
      return ()
    else
      let killed ← signalOwner pidfd .sigkill
      if killed = false then
        return ()
      else
        let _ ← waitpidNointr patience false
        return ()

/-- What the worker does for a call of `Clipboard.lean`, with `owner_pidfd`. -/
def ownerCalls (pidfd : Bool) : (op : ClipOp) → ProcM (ClipRes op × Bool)
  | .ownerHasExited => do
    let exited ← ownerHasExited patience
    return (exited, pidfd)
  | .reapOwner => do
    let _ ← waitpidNointr patience false
    return ((), pidfd)
  | .terminateOwner => do
    terminateOwner patience pidfd
    return ((), pidfd)
  | .openPidfd => do
    let opened ← proc (.other .openPidfd)
    return (opened, opened)
  | op => do
    let answer ← proc (.other op)
    return (answer, pidfd)

/-- `worker_loop`, down to the calls that wait for the owner and signal it. -/
def workerLoopCalls (ttlSeconds : Nat) : ProcM PvStatus :=
  (workerLoop patience ttlSeconds).handle (ownerCalls patience) false

end Programs

/-! ## What the programs achieve -/

section Specs

variable {w : OwnerWorld}

theorem OwnerWorld.Exits.safe {w' : OwnerWorld} (h : w.Exits w') (hsafe : w.Safe) : w'.Safe := by
  obtain rfl | ⟨-, rfl⟩ := h
  · exact hsafe
  · exact hsafe

theorem OwnerWorld.Exits.holds {w' : OwnerWorld} (h : w.Exits w') (hholds : w.owner.Holds) :
    w'.owner.Holds := by
  obtain rfl | ⟨-, rfl⟩ := h
  · exact hholds
  · exact .inr rfl

theorem OwnerWorld.Exits.gone {w' : OwnerWorld} (h : w.Exits w') (hgone : w.Gone) : w'.Gone := by
  obtain rfl | ⟨hrun, rfl⟩ := h
  · exact hgone
  · exact hgone.imp_left fun hnot => absurd (.inl hrun) hnot

theorem OwnerWorld.Safe.signal (h : w.Safe) (hholds : w.owner.Holds) (failed : Bool) :
    OwnerWorld.Safe ⟨w.owner, w.owner :: w.signalled, failed⟩ :=
  List.forall_mem_cons.mpr ⟨hholds, h⟩

/-- What `waitpid_nointr` returned. -/
def Waited (nohang : Bool) (w w' : OwnerWorld) : WaitAnswer → Prop
  | .interrupted => False
  | .unchanged => nohang = true ∧ w'.owner.Holds ∧ (w.Gone → w'.Gone)
  | .reaped | .noChild => ¬w'.owner.Holds

theorem waitpidNointr_spec (patience : Nat) (nohang : Bool) :
    owning.wp (waitpidNointr patience nohang) (fun r w' => Waited nohang w w' r) w := by
  refine Sem.wp_iterate (fun _ w₁ => w.Gone → w₁.Gone) trivial (fun _ w₁ hinv => ?_) patience id
  intro w₂ hrely answer w₃ hstep
  have hgone : w.Gone → w₂.Gone := fun h => hrely.gone (hinv h)
  cases answer with
  | interrupted =>
    obtain rfl : w₃ = w₂ := hstep
    exact ⟨id, hgone⟩
  | unchanged =>
    obtain ⟨hnohang, hrunning, rfl⟩ := hstep
    exact ⟨id, hnohang, .inl hrunning, hgone⟩
  | reaped =>
    obtain ⟨-, rfl⟩ := hstep
    exact ⟨id, fun h => by rcases h with h | h <;> cases h⟩
  | noChild =>
    obtain ⟨hnot, rfl⟩ := hstep
    exact ⟨id, hnot⟩

theorem ownerHasExited_spec (patience : Nat) :
    owning.wp (ownerHasExited patience)
      (fun r w' => if r = true then ¬w'.owner.Holds else w'.owner.Holds ∧ (w.Gone → w'.Gone)) w := by
  refine Sem.wp_then (waitpidNointr_spec patience true) fun answer w' h => ?_
  cases answer with
  | interrupted => exact h.elim
  | unchanged => exact h.2
  | reaped => exact h
  | noChild => exact h

/-- A signal to an owner that was not reaped. -/
theorem signalOwner_spec (pidfd : Bool) (signal : Signal) (h : w.owner.Holds) :
    owning.wp (signalOwner pidfd signal)
      (fun sent w' => w'.owner.Holds ∧
        (signal = .sigkill → sent = false → w'.killFailed = true)) w := by
  have hkill : ∀ {w : OwnerWorld}, w.owner.Holds → owning.wp (proc (.kill signal))
      (fun sent w' => w'.owner.Holds ∧
        (signal = .sigkill → sent = false → w'.killFailed = true)) w := by
    intro w h w₁ hrely sent w₂ hstep
    obtain rfl := hstep
    refine ⟨fun hsafe => hsafe.signal (hrely.holds h) _, hrely.holds h, ?_⟩
    rintro rfl rfl
    exact Bool.or_true _
  rw [signalOwner]
  split
  · intro w₁ hrely sent w₂ hstep
    obtain rfl := hstep
    refine ⟨fun hsafe => hsafe.signal (hrely.holds h) _, ?_⟩
    cases sent with
    | true => exact ⟨hrely.holds h, nofun⟩
    | false => exact hkill (hrely.holds h)
  · exact hkill h

theorem awaitExit_spec (patience passes : Nat) : ∀ {w : OwnerWorld}, w.owner.Holds →
    owning.wp (awaitExit patience passes)
      (fun r w' => if r = true then ¬w'.owner.Holds else w'.owner.Holds) w := by
  induction passes with
  | zero => exact fun h => h
  | succ passes ih =>
    intro w h
    refine Sem.wp_then (ownerHasExited_spec patience) fun exited w₁ h₁ => ?_
    split at h₁
    · next hexited =>
      rw [if_pos hexited]
      exact h₁
    · next hexited =>
      rw [if_neg hexited]
      intro w₂ hrely _ w₃ hstep
      obtain rfl : w₃ = w₂ := hstep
      exact ⟨id, ih (hrely.holds h₁.1)⟩

/-- **Termination of the owner.** Afterwards it has been reaped, unless the last signal could
not be sent. -/
theorem terminateOwner_spec (patience : Nat) (pidfd : Bool) :
    owning.wp (terminateOwner patience pidfd) (fun _ w' => w'.Gone) w := by
  refine Sem.wp_then (ownerHasExited_spec patience) fun exited w₁ h₁ => ?_
  split at h₁
  · next hexited =>
    rw [if_pos hexited]
    exact .inl h₁
  next hexited =>
  rw [if_neg hexited]
  refine Sem.wp_then (signalOwner_spec pidfd .sigterm h₁.1) fun _ w₂ h₂ => ?_
  refine Sem.wp_then (awaitExit_spec patience _ h₂.1) fun exited w₃ h₃ => ?_
  split at h₃
  · next hexited =>
    rw [if_pos hexited]
    exact .inl h₃
  next hexited =>
  rw [if_neg hexited]
  refine Sem.wp_then (signalOwner_spec pidfd .sigkill h₃) fun killed w₄ h₄ => ?_
  split
  · next hkilled => exact .inr (h₄.2 rfl hkilled)
  · refine Sem.wp_then (waitpidNointr_spec patience false) fun answer w₅ h₅ => ?_
    cases answer with
    | interrupted => exact h₅.elim
    | unchanged => cases h₅.1
    | reaped => exact .inl h₅
    | noChild => exact .inl h₅

end Specs

/-! ## The worker -/

section Worker

variable {α : Type} {w : OwnerWorld}

/-- What a call of `Clipboard.lean` means for the owner. -/
def OwnerWorld.Effect (w : OwnerWorld) : (op : ClipOp) → ClipRes op → OwnerWorld → Prop
  | .spawnOwner _, true, _ => True
  | .ownerHasExited, true, w' => w'.Gone
  | .reapOwner, _, w' => w'.Gone
  | .terminateOwner, _, w' => w'.Gone
  | _, _, w' => w.Gone → w'.Gone

/-- The runs of the worker over these calls. -/
def supervising : Sem ClipRes OwnerWorld where
  step := OwnerWorld.Effect
  rely := Eq
  guar _ _ := True
  diverges := True

/-- **Each call** of the worker does what `OwnerWorld.Effect` says, whenever the owner
exits, and signals the owner only. -/
theorem ownerCalls_spec (patience : Nat) (pidfd : Bool) (op : ClipOp) (w : OwnerWorld) :
    owning.wp (ownerCalls patience pidfd op) (fun x w' => w.Effect op x.1 w') w := by
  cases op with
  | ownerHasExited =>
    refine Sem.wp_then (ownerHasExited_spec patience) fun exited w' h => ?_
    cases exited with
    | true => exact .inl h
    | false => exact h.2
  | reapOwner =>
    refine Sem.wp_then (waitpidNointr_spec patience false) fun answer w' h => ?_
    cases answer with
    | interrupted => exact h.elim
    | unchanged => cases h.1
    | reaped => exact .inl h
    | noChild => exact .inl h
  | terminateOwner => exact Sem.wp_then (terminateOwner_spec patience pidfd) fun _ _ h => h
  | spawnOwner text =>
    intro w₁ hrely spawned w₂ hstep
    cases spawned with
    | true =>
      obtain rfl := hstep
      exact ⟨id, trivial⟩
    | false =>
      obtain rfl : w₂ = w₁ := hstep
      exact ⟨id, hrely.gone⟩
  | _ =>
    intro w₁ hrely r w₂ hstep
    obtain rfl : w₂ = w₁ := hstep
    exact ⟨id, hrely.gone⟩

theorem supervising_trivial (p : ClipM α) (w : OwnerWorld) :
    supervising.wp p (fun _ _ => True) w := by
  induction p generalizing w with
  | ret a => trivial
  | spin => trivial
  | call op k ih => exact fun _ _ r w₂ _ => ⟨trivial, ih r w₂⟩

/-- Only spawning an owner makes one. -/
theorem keeps_gone_call {op : ClipOp} {k : ClipRes op → ClipM α}
    (hop : ∀ text, op ≠ .spawnOwner text) (hk : ∀ r, supervising.Keeps OwnerWorld.Gone (k r)) :
    supervising.Keeps OwnerWorld.Gone (clip op >>= k) := by
  rintro w h w₁ rfl r w₂ hstep
  refine ⟨trivial, hk r w₂ ?_⟩
  cases op with
  | spawnOwner text => exact absurd rfl (hop text)
  | ownerHasExited =>
    cases r with
    | true => exact hstep
    | false => exact hstep h
  | reapOwner => exact hstep
  | terminateOwner => exact hstep
  | _ => exact hstep h

/-! ### Before there is an owner -/

theorem keeps_gone_clip {op : ClipOp} (hop : ∀ text, op ≠ .spawnOwner text) :
    supervising.Keeps OwnerWorld.Gone (clip op) :=
  keeps_gone_call hop fun r => Sem.keeps_ret r

theorem keeps_gone_clipIf {condition : Bool} {x : ClipM α} {otherwise : α}
    (h : supervising.Keeps OwnerWorld.Gone x) :
    supervising.Keeps OwnerWorld.Gone (clipIf condition x otherwise) :=
  h.ite (Sem.keeps_ret _)

theorem keeps_gone_sendControl (patience : Nat) (m : ClipMessage) :
    supervising.Keeps OwnerWorld.Gone (sendControl patience .worker m) := by
  have hrestore : ∀ k : Bool → Bool,
      supervising.Keeps OwnerWorld.Gone (clip .restoreSignals >>= fun r => pure (k r)) :=
    fun k => keeps_gone_call (by nofun) fun r => Sem.keeps_ret (k r)
  refine keeps_gone_call (by nofun) fun blocked => Sem.Keeps.ite (Sem.keeps_ret _) ?_
  refine keeps_gone_call (by nofun) fun pending => ?_
  cases pending with
  | none => exact hrestore fun _ => false
  | some pipeWasPending =>
    refine Sem.Keeps.bind ?_ fun answer => ?_
    · exact Sem.keeps_iterate trivial
        (fun _ => keeps_gone_call (by nofun) fun _ => Sem.keeps_ret _) patience ()
    · refine Sem.Keeps.bind (keeps_gone_clipIf ?_) fun _ => hrestore _
      exact Sem.keeps_iterate trivial
        (fun _ => keeps_gone_call (by nofun) fun _ => Sem.keeps_ret _) patience ()

theorem keeps_gone_receiveControl (patience : Nat) :
    supervising.Keeps OwnerWorld.Gone (receiveControl patience .worker) := by
  refine Sem.keeps_iterate trivial (fun _ => keeps_gone_call (by nofun) fun answer => ?_) patience ()
  cases answer with
  | interrupted => exact keeps_gone_call (by nofun) fun _ => Sem.keeps_ret _
  | message m => exact Sem.keeps_ret _
  | closed => exact Sem.keeps_ret _
  | failed => exact Sem.keeps_ret _

theorem keeps_gone_workerSetup : supervising.Keeps OwnerWorld.Gone workerSetup := by
  have hcall : ∀ call, supervising.Keeps OwnerWorld.Gone (clip (.prepareWorker call)) :=
    fun call => keeps_gone_clip (by nofun)
  refine (hcall _).bind fun normal => Sem.Keeps.ite (Sem.keeps_ret _) ?_
  refine (hcall _).bind fun data => ?_
  refine (keeps_gone_clipIf (hcall _)).bind fun control => ?_
  refine (keeps_gone_clipIf (hcall _)).bind fun setup => ?_
  refine (keeps_gone_clipIf (hcall _)).bind fun handlers => Sem.Keeps.ite (Sem.keeps_ret _) ?_
  exact (hcall _).bind fun backend => Sem.keeps_ret _

/-! ### Cleaning up -/

/-- The worker still knows of the owner, or there is none. -/
def Held (fds : WorkerFds) (w : OwnerWorld) : Prop := fds.owner = true ∨ w.Gone

theorem workerCleanup_gone (fds : WorkerFds) (status : PvStatus) (h : Held fds w) :
    supervising.wp (workerCleanup fds status) (fun _ w' => w'.Gone) w := by
  have hclose : ∀ isOpen fd, supervising.Keeps OwnerWorld.Gone (closeIfOpen isOpen fd) :=
    fun _ _ => keeps_gone_clipIf (keeps_gone_clip (by nofun))
  have howner : supervising.wp (clipIf fds.owner (clip .terminateOwner) ())
      (fun _ w' => w'.Gone) w := by
    rw [clipIf]
    split
    · rintro w₁ rfl _ w₂ hstep
      exact ⟨trivial, hstep⟩
    · next hfalse => exact h.resolve_left hfalse
  refine Sem.wp_then howner fun _ w₁ h₁ => ?_
  exact ((hclose _ _).bind fun _ => (hclose _ _).bind fun _ => (hclose _ _).bind fun _ =>
    (hclose _ _).bind fun _ => (hclose _ _).bind fun _ => Sem.keeps_ret status) w₁ h₁

theorem workerFails_gone (patience : Nat) (fds : WorkerFds) (status : PvStatus) (h : Held fds w) :
    supervising.wp (workerFails patience fds status) (fun _ w' => w'.Gone) w := by
  have hsend : supervising.wp (sendControl patience .worker .failed) (fun _ w' => Held fds w') w := by
    rcases h with howner | hgone
    · exact Sem.wp_mono (supervising_trivial _ w) fun _ _ _ => .inl howner
    · exact Sem.wp_mono (keeps_gone_sendControl patience .failed w hgone) fun _ _ h => .inr h
  exact Sem.wp_then hsend fun _ w₁ h₁ => workerCleanup_gone fds status h₁

/-! ### With an owner -/

/-- The TTL wait reports the exit of the owner only after it has reaped it. -/
theorem waitForOwnerOrTimeout_gone (patience : Nat) (pidfd : Bool) (w : OwnerWorld) :
    supervising.wp (waitForOwnerOrTimeout patience pidfd)
      (fun r w' => r = .ownerExited → w'.Gone) w := by
  refine Sem.wp_iterate (fun _ _ => True) trivial (fun _ w₁ _ => ?_) patience trivial
  refine Sem.wp_then (supervising_trivial _ w₁) fun answer w₂ _ => ?_
  refine Sem.wp_then (supervising_trivial _ w₂) fun stop w₃ _ => ?_
  split
  · exact nofun
  have hgone : supervising.wp (ownerGone pidfd) (fun gone w' => gone = true → w'.Gone) w₃ := by
    rw [ownerGone, clipIf]
    split
    · rintro w₄ rfl exited w₅ hstep
      refine ⟨trivial, ?_⟩
      rintro rfl
      exact hstep
    · exact nofun
  refine Sem.wp_then hgone fun gone w₄ h₄ => ?_
  split
  · next hexited => exact fun _ => h₄ hexited
  split
  · split
    · rintro w₅ rfl _ w₆ hstep
      exact ⟨trivial, fun _ => hstep⟩
    · split
      · refine Sem.wp_then (supervising_trivial _ w₄) fun read w₅ _ => ?_
        cases read with
        | true => exact nofun
        | false => exact nofun
      · trivial
  · trivial

theorem workerServe_gone (patience : Nat) (fds : WorkerFds) (howner : fds.owner = true)
    (w : OwnerWorld) : supervising.wp (workerServe patience fds) (fun _ w' => w'.Gone) w := by
  refine Sem.wp_then (supervising_trivial _ w) fun _ w₁ _ => ?_
  refine Sem.wp_then (waitForOwnerOrTimeout_gone patience fds.pidfd w₁) fun r w₂ h₂ => ?_
  cases r with
  | failed => exact workerCleanup_gone _ _ (.inl howner)
  | ownerExited => exact workerCleanup_gone _ _ (.inr (h₂ rfl))
  | expired =>
    rintro w₃ rfl _ w₄ hstep
    exact ⟨trivial, workerCleanup_gone _ _ (.inr hstep)⟩

theorem workerAccept_gone (patience ttlSeconds : Nat) (fds : WorkerFds)
    (howner : fds.owner = true) (w : OwnerWorld) :
    supervising.wp (workerAccept patience ttlSeconds fds) (fun _ w' => w'.Gone) w := by
  refine Sem.wp_then (supervising_trivial _ w) fun armed w₁ _ => ?_
  split
  · exact workerFails_gone _ _ _ (.inl howner)
  refine Sem.wp_then (supervising_trivial _ w₁) fun stop w₂ _ => ?_
  refine Sem.wp_then (supervising_trivial _ w₂) fun exited w₃ _ => ?_
  split
  · exact workerFails_gone _ _ _ (.inl howner)
  refine Sem.wp_then (supervising_trivial _ w₃) fun sent w₄ _ => ?_
  split
  · exact workerCleanup_gone _ _ (.inl howner)
  · exact workerServe_gone patience fds howner w₄

theorem workerOwn_gone (patience ttlSeconds : Nat) (fds : WorkerFds) (howner : fds.owner = true)
    (w : OwnerWorld) :
    supervising.wp (workerOwn patience ttlSeconds fds) (fun _ w' => w'.Gone) w := by
  refine Sem.wp_then (supervising_trivial _ w) fun _ w₁ _ => ?_
  refine Sem.wp_then (supervising_trivial _ w₁) fun pidfd w₂ _ => ?_
  refine Sem.wp_then (supervising_trivial _ w₂) fun timer w₃ _ => ?_
  split
  · exact workerFails_gone _ _ _ (.inl howner)
  refine Sem.wp_then (supervising_trivial _ w₃) fun sent w₄ _ => ?_
  split
  · exact workerCleanup_gone _ _ (.inl howner)
  refine Sem.wp_then (supervising_trivial _ w₄) fun done w₅ _ => ?_
  split
  · exact workerFails_gone _ _ _ (.inl howner)
  · refine workerAccept_gone _ _ _ ?_ w₅
    exact howner

theorem workerStart_gone (patience ttlSeconds : Nat) (fds : WorkerFds) (h : w.Gone) :
    supervising.wp (workerStart patience ttlSeconds fds) (fun _ w' => w'.Gone) w := by
  refine Sem.wp_then (keeps_gone_receiveControl patience w h) fun message w₁ h₁ => ?_
  split
  · exact workerCleanup_gone _ _ (.inr h₁)
  refine Sem.wp_then (keeps_gone_clip (by nofun) w₁ h₁) fun stop w₂ h₂ => ?_
  split
  · exact workerCleanup_gone _ _ (.inr h₂)
  rintro w₃ rfl spawned w₄ hstep
  refine ⟨trivial, ?_⟩
  cases spawned with
  | true => exact workerOwn_gone _ _ _ rfl w₄
  | false => exact workerFails_gone _ _ _ (.inr (hstep h₂))

theorem workerLoop_gone (patience ttlSeconds : Nat) (h : w.Gone) :
    supervising.wp (workerLoop patience ttlSeconds) (fun _ w' => w'.Gone) w := by
  refine Sem.wp_then (keeps_gone_workerSetup w h) fun status w₁ h₁ => ?_
  refine Sem.wp_then (keeps_gone_clip (by nofun) w₁ h₁) fun reported w₂ h₂ => ?_
  refine Sem.wp_then (keeps_gone_clip (by nofun) w₂ h₂) fun _ w₃ h₃ => ?_
  dsimp only
  generalize (if reported = false then PvStatus.errIo else status) = result
  split
  · exact workerCleanup_gone _ _ (.inr h₃)
  · exact workerStart_gone _ _ _ h₃

/-- The worker before it has spawned the owner. -/
def OwnerWorld.start : OwnerWorld := ⟨.absent, [], false⟩

theorem workerLoopCalls_spec (patience ttlSeconds : Nat) :
    owning.wp (workerLoopCalls patience ttlSeconds) (fun _ w' => w'.Gone) .start :=
  Sem.wp_handle (fun _ => trivial) (fun _ => rfl)
    (fun pidfd op w => ownerCalls_spec patience pidfd op w) false
    (workerLoop_gone patience ttlSeconds (.inl fun h => by rcases h with h | h <;> cases h))

/-- **The worker reaps its owner.** In every run of `worker_loop`, whatever its calls answer
and whenever the owner exits: every signal so far met an owner that had not been reaped; and
once `worker_loop` has returned, the owner was never spawned, has been reaped, or `SIGKILL`
could not be sent to it. -/
theorem worker_reaps_owner (patience ttlSeconds : Nat) (p : ProcM PvStatus) (w : OwnerWorld)
    (hrun : Sem.Run owning (workerLoopCalls patience ttlSeconds) .start p w) :
    (∀ s ∈ w.signalled, s = .running ∨ s = .exited) ∧
    ∀ status, p = .ret status →
      w.owner = .absent ∨ w.owner = .reaped ∨ w.killFailed = true := by
  have hrefl : ∀ w, owning.rely w w := fun _ => .inl rfl
  have htrans : ∀ a b c, owning.rely a b → owning.rely b c → owning.rely a c := by
    rintro a b c (rfl | ⟨hrun, rfl⟩) hbc
    · exact hbc
    · obtain rfl | ⟨hexited, -⟩ := hbc
      · exact .inr ⟨hrun, rfl⟩
      · cases hexited
  have hgone : ∀ (_ : PvStatus) w₁ w₂, w₁.Gone → owning.rely w₁ w₂ → w₂.Gone :=
    fun _ _ _ hgone hrely => OwnerWorld.Exits.gone hrely hgone
  refine ⟨?_, ?_⟩
  · exact Sem.guar_run hrun hrefl htrans hgone (workerLoopCalls_spec patience ttlSeconds)
      (fun _ _ hrely hsafe => OwnerWorld.Exits.safe hrely hsafe) (fun _ _ hguar => hguar)
      (show OwnerWorld.start.Safe from nofun)
  · rintro status rfl
    have hend : w.Gone :=
      Sem.wp_run hrun hrefl htrans hgone (workerLoopCalls_spec patience ttlSeconds)
    rcases hend with hnot | hfailed
    · cases howner : w.owner with
      | absent => exact .inl rfl
      | running => exact absurd (.inl howner) hnot
      | exited => exact absurd (.inr howner) hnot
      | reaped => exact .inr (.inl rfl)
    · exact .inr (.inr hfailed)

/-- A run in which no timer can be created: the owner is terminated and reaped. -/
theorem workerLoopCalls_run :
    Sem.Run owning (workerLoopCalls 1 30) .start (.ret .errIo) ⟨.reaped, [.running], false⟩ := by
  -- the setup, its report and `START`
  refine .call (r := true) rfl (.call (r := true) rfl (.call (r := true) rfl ?_))
  refine .call (r := true) rfl (.call (r := true) rfl (.call (r := true) rfl ?_))
  refine .call (r := true) rfl (.call (r := ()) rfl (.call (r := .message .startText) rfl ?_))
  refine .call (r := false) rfl ?_
  -- the owner, without a descriptor and without a timer
  refine .call (r := true) (by exact rfl) (.call (r := ()) rfl (.call (r := false) rfl ?_))
  refine .call (r := false) rfl ?_
  -- `FAILED`
  refine .call (r := true) rfl (.call (r := some false) rfl (.call (r := .sent) rfl ?_))
  refine .call (r := true) rfl ?_
  -- the owner is running, gets `SIGTERM`, exits and is reaped
  refine .call (r := .unchanged) (by exact ⟨rfl, rfl, rfl⟩) (.call (r := true) (by exact rfl) ?_)
  refine .env (.inr ⟨rfl, rfl⟩) (.call (r := .reaped) (by exact ⟨rfl, rfl⟩) ?_)
  exact .call (r := ()) rfl (.refl _ _)

theorem worker_reaps_owner_unarmed : ∃ w,
    Sem.Run owning (workerLoopCalls 1 30) .start (.ret .errIo) w ∧
    w.signalled = [.running] ∧ w.killFailed = false ∧
    (∀ s ∈ w.signalled, s = .running ∨ s = .exited) ∧
    (w.owner = .absent ∨ w.owner = .reaped ∨ w.killFailed = true) := by
  obtain ⟨hsent, hgone⟩ := worker_reaps_owner 1 30 _ _ workerLoopCalls_run
  exact ⟨_, workerLoopCalls_run, rfl, rfl, hsent, hgone .errIo rfl⟩

end Worker

end PVault
