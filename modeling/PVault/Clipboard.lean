import PVault.Lib.Par
import PVault.Status
import PVault.Text

/-!
# The clipboard hand-off (`src/clipboard.c`)

The client hands a secret to a worker process over two channels: a control channel of
one-byte messages in both directions, and a pipe for the secret. The client sends `START`
and waits; the worker spawns the program that owns the clipboard and answers `READY`; the
client writes the secret into the pipe, closes it and sends `DONE`; the worker arms a timer
and answers `ACCEPTED`, and then waits for the owner to exit or the timer to expire.

Here are the two programs, call by call, and the world they share. Whatever a call answers
(timeouts, failures, interrupts, signals, exits of the owner) is left open; `Clip.Allowed`
only says that a received message was the next one on the channel, and that no more bytes
are written than were offered.
-/

namespace PVault

open Binary Conc

/-! ## Calls -/

/-- `enum pv_clip_message`. -/
inductive ClipMessage where
  | startText
  | ready
  | done
  | failed
  | accepted
  | startBinary
  deriving DecidableEq, Repr

/-- The two ends of the control channel. -/
inductive Party where
  | client
  | worker
  deriving DecidableEq, Repr

/-- The descriptors that are closed. -/
inductive ClipFd where
  | clientWrite
  | clientControl
  | clientSupervisor
  | workerData
  | workerControl
  | workerSetup
  | workerTimer
  | workerPidfd
  deriving DecidableEq, Repr

/-- The calls of `worker_loop` before it reports to the client. -/
inductive WorkerCall where
  | normalizeSignals
  | closeOnExec (fd : ClipFd)
  | stopHandlers
  | chooseBackend
  deriving DecidableEq, Repr

/-- `write` of a message: sent, `EINTR`, `EPIPE`, or failed otherwise. -/
inductive SendAnswer where
  | sent
  | interrupted
  | broken
  | failed
  deriving DecidableEq, Repr

/-- `recv` of a message: one, end of file, `EINTR`, or failed otherwise. -/
inductive RecvAnswer where
  | message (m : ClipMessage)
  | closed
  | interrupted
  | failed
  deriving DecidableEq, Repr

/-- `poll` of one descriptor: `EINTR`, failed or an error event, nothing, or an event. -/
inductive PollAnswer where
  | interrupted
  | failed
  | idle
  | ready
  deriving DecidableEq, Repr

/-- `write` of a part of the secret: so many bytes, `EINTR`, `EAGAIN`, `EPIPE`, or failed
otherwise. -/
inductive WriteAnswer where
  | wrote (n : Nat)
  | interrupted
  | again
  | broken
  | failed
  deriving DecidableEq, Repr

/-- `poll` of two descriptors: the events of both. -/
inductive PairAnswer where
  | interrupted
  | failed
  | idle
  | events (first second hangup : Bool)
  deriving DecidableEq, Repr

/-- The calls of the two programs. -/
inductive ClipOp where
  /-- `sigemptyset`, `sigaddset` and `sigprocmask(SIG_BLOCK)` -/
  | blockSignal
  /-- `sigpending` and `sigismember` -/
  | pendingSignal
  /-- `sigtimedwait`: was it interrupted? -/
  | drainSignal
  /-- `sigprocmask(SIG_SETMASK)` -/
  | restoreSignals
  | writeControl (who : Party) (m : ClipMessage)
  | receive (who : Party)
  /-- reads `pv_clip_stop_requested` -/
  | stopRequested
  /-- `poll` of the client's control descriptor -/
  | pollControl
  | writeData (chunk : Bytes)
  /-- `poll` of the pipe and the control descriptor in `write_secret` -/
  | pollData
  | closeFd (fd : ClipFd)
  | signalSupervisor
  | prepareWorker (call : WorkerCall)
  | reportSetup (status : PvStatus)
  | spawnOwner (text : Bool)
  | openPidfd
  | createTimer
  | setTimer (ttlSeconds : Nat)
  /-- `poll` of the control descriptor, and of the owner if it has a descriptor -/
  | pollDone (pidfd : Bool)
  /-- `poll` of the timer, and of the owner if it has a descriptor -/
  | pollTtl (pidfd : Bool)
  | readTimer
  | ownerHasExited
  | reapOwner
  | terminateOwner

/-- The answer to a call. -/
abbrev ClipRes : ClipOp → Type
  | .pendingSignal => Option Bool
  | .writeControl _ _ => SendAnswer
  | .receive _ => RecvAnswer
  | .pollControl | .pollData => PollAnswer
  | .writeData _ => WriteAnswer
  | .pollDone _ | .pollTtl _ => PairAnswer
  | .closeFd _ | .signalSupervisor | .reapOwner | .terminateOwner => Unit
  | _ => Bool

/-- Programs over the two channels. -/
abbrev ClipM : Type → Type := Prog ClipRes

/-- A call. -/
abbrev clip (op : ClipOp) : ClipM (ClipRes op) := Prog.perform op

/-- `x` when the condition holds, and `otherwise` without a call when it does not. -/
def clipIf {α : Type} (condition : Bool) (x : ClipM α) (otherwise : α) : ClipM α :=
  if condition = true then x else return otherwise

/-! ## The control channel -/

/-- Discard a pending `SIGPIPE`. -/
def drainSignals (patience : Nat) : ClipM Unit :=
  Prog.iterate (fun _ : Unit => do
    let interrupted ← clip .drainSignal
    return if interrupted = true then .inl () else .inr ()) patience ()

/-- The `write` of `send_control`, repeated while it is interrupted. -/
def writeMessage (patience : Nat) (who : Party) (m : ClipMessage) : ClipM SendAnswer :=
  Prog.iterate (fun _ : Unit => do
    let answer ← clip (.writeControl who m)
    return if answer = .interrupted then .inl () else .inr answer) patience ()

/-- `send_control`: did it return zero? -/
def sendControl (patience : Nat) (who : Party) (m : ClipMessage) : ClipM Bool := do
  let blocked ← clip .blockSignal
  if blocked = false then
    return false
  else
    match ← clip .pendingSignal with
    | none =>
      let _ ← clip .restoreSignals
      return false
    | some pipeWasPending =>
      let answer ← writeMessage patience who m
      clipIf (answer = .broken ∧ pipeWasPending = false) (drainSignals patience) ()
      -- the message may have been sent even if the signal mask is not restored
      let restored ← clip .restoreSignals
      return decide (answer = .sent) && restored

/-- `receive_control`. -/
def receiveControl (patience : Nat) (who : Party) : ClipM (Option ClipMessage) :=
  Prog.iterate (fun _ : Unit => do
    match ← clip (.receive who) with
    | .message m => return .inr (some m)
    | .interrupted =>
      let stop ← clip .stopRequested
      return if stop = true then .inr none else .inl ()
    | _ => return .inr none) patience ()

/-- `poll_one` of the client's control descriptor. -/
def pollOne (patience : Nat) : ClipM PollAnswer :=
  Prog.iterate (fun _ : Unit => do
    match ← clip .pollControl with
    | .interrupted =>
      let stop ← clip .stopRequested
      return if stop = true then .inr .failed else .inl ()
    | answer => return .inr answer) patience ()

/-- Wait for a message of the worker. -/
def waitForOwner (patience : Nat) (expected : ClipMessage) : ClipM PvStatus := do
  match ← pollOne patience with
  | .idle => return .errExternal
  | .ready =>
    match ← receiveControl patience .client with
    | none => return .errIo
    | some m => return if m = expected then .ok else .errExternal
  | _ => return .errIo

/-- `wait_for_owner_ready`. -/
def waitForOwnerReady (patience : Nat) : ClipM PvStatus := waitForOwner patience .ready

/-- `wait_for_owner_accepted`. -/
def waitForOwnerAccepted (patience : Nat) : ClipM PvStatus := waitForOwner patience .accepted

/-! ## The client -/

/-- `pv_clipboard_job`: which descriptors are open, and whether there is a supervisor. -/
structure ClipJob where
  writeFd : Bool
  controlFd : Bool
  supervisorFd : Bool
  supervisor : Bool
  deriving DecidableEq, Repr

/-- `close_if_open`. -/
def closeIfOpen (isOpen : Bool) (fd : ClipFd) : ClipM Unit :=
  clipIf isOpen (clip (.closeFd fd)) ()

/-- `pv_clipboard_cancel`: the job afterwards. -/
def pvClipboardCancel (job : ClipJob) : ClipM ClipJob := do
  closeIfOpen job.writeFd .clientWrite
  closeIfOpen job.controlFd .clientControl
  clipIf (job.supervisor && job.supervisorFd) (clip .signalSupervisor) ()
  closeIfOpen job.supervisorFd .clientSupervisor
  return ⟨false, false, false, false⟩

/-- The `poll` of `write_secret`, repeated while it is interrupted. -/
def pollSecret (patience : Nat) : ClipM PollAnswer :=
  Prog.iterate (fun _ : Unit => do
    let answer ← clip .pollData
    return if answer = .interrupted then .inl () else .inr answer) patience ()

/-- A round of the loop of `write_secret`: the next offset, or the status and whether `errno`
is `EPIPE`. An event on the control descriptor ends it. -/
def writeSecretRound (patience : Nat) (secret : Bytes) (offset : Nat) :
    ClipM (Nat ⊕ (PvStatus × Bool)) :=
  if offset ≥ secret.length then
    return .inr (.ok, false)
  else do
    match ← clip (.writeData (secret.drop offset)) with
    | .wrote n => return if n > 0 then .inl (offset + n) else .inr (.errExternal, false)
    | .interrupted => return .inl offset
    | .again =>
      let answer ← pollSecret patience
      return if answer = .ready then .inl offset else .inr (.errExternal, false)
    | .broken => return .inr (.errExternal, true)
    | .failed => return .inr (.errExternal, false)

/-- `write_secret`. -/
def writeSecret (patience : Nat) (secret : Bytes) : ClipM PvStatus := do
  let blocked ← clip .blockSignal
  if blocked = false then
    return .errIo
  else
    match ← clip .pendingSignal with
    | none =>
      let _ ← clip .restoreSignals
      return .errIo
    | some pipeWasPending =>
      let (status, broken) ← Prog.iterate (writeSecretRound patience secret) patience 0
      clipIf (status ≠ .ok ∧ broken = true ∧ pipeWasPending = false) (drainSignals patience) ()
      let restored ← clip .restoreSignals
      return if restored = false ∧ status = .ok then .errIo else status

/-- Cancel the job and return an error. -/
def cancelWith (job : ClipJob) (status : PvStatus) : ClipM (PvStatus × ClipJob) := do
  let job ← pvClipboardCancel job
  return (status, job)

/-- The message that starts the transfer of a secret. -/
def startMessage (secret : Bytes) : ClipMessage :=
  if 0 ∉ secret ∧ pvUtf8Valid secret = true then .startText else .startBinary

/-- `pv_clipboard_send` once the secret has been written: `DONE` and the answer to it. -/
def finishSend (patience : Nat) (job : ClipJob) : ClipM (PvStatus × ClipJob) := do
  let sent ← sendControl patience .client .done
  if sent = false then
    cancelWith job .errExternal
  else
    let status ← waitForOwnerAccepted patience
    if status ≠ .ok then
      cancelWith job status
    else
      closeIfOpen job.controlFd .clientControl
      closeIfOpen job.supervisorFd .clientSupervisor
      return (.ok, { job with controlFd := false, supervisorFd := false, supervisor := false })

/-- `pv_clipboard_send` once `START` has been sent. -/
def transferSecret (patience : Nat) (job : ClipJob) (secret : Bytes) :
    ClipM (PvStatus × ClipJob) := do
  let status ← waitForOwnerReady patience
  if status ≠ .ok then
    cancelWith job status
  else
    let status ← writeSecret patience secret
    closeIfOpen job.writeFd .clientWrite
    let job := { job with writeFd := false }
    if status ≠ .ok then cancelWith job status else finishSend patience job

/-- `pv_clipboard_send`: the status and the job afterwards. -/
def pvClipboardSend (patience : Nat) (job : ClipJob) (secret : Bytes) :
    ClipM (PvStatus × ClipJob) :=
  if secret.length = 0 ∨ job.writeFd = false ∨ job.controlFd = false ∨ job.supervisor = false then
    return (.errUsage, job)
  else if secret.length > pvMaxPlaintext then
    return (.errLimit, job)
  else do
    let sent ← sendControl patience .client (startMessage secret)
    if sent = false then cancelWith job .errExternal else transferSecret patience job secret

/-- What the client does with a job. -/
inductive ClipCall where
  | send (secret : Bytes)
  | cancel

/-- One call after the other, each with the status it returns. -/
def clipSession (patience : Nat) : List ClipCall → ClipJob → ClipM (List PvStatus × ClipJob)
  | [], job => return ([], job)
  | .send secret :: calls, job => do
    let (status, job) ← pvClipboardSend patience job secret
    let (statuses, job) ← clipSession patience calls job
    return (status :: statuses, job)
  | .cancel :: calls, job => do
    let job ← pvClipboardCancel job
    let (statuses, job) ← clipSession patience calls job
    return (.ok :: statuses, job)

/-! ## The worker -/

/-- Which descriptors of the worker are open, and whether there is an owner. -/
structure WorkerFds where
  data : Bool
  control : Bool
  setup : Bool
  timer : Bool
  pidfd : Bool
  owner : Bool
  deriving DecidableEq, Repr

/-- The end of `worker_loop`. -/
def workerCleanup (fds : WorkerFds) (status : PvStatus) : ClipM PvStatus := do
  clipIf fds.owner (clip .terminateOwner) ()
  closeIfOpen fds.timer .workerTimer
  closeIfOpen fds.pidfd .workerPidfd
  closeIfOpen fds.setup .workerSetup
  closeIfOpen fds.control .workerControl
  closeIfOpen fds.data .workerData
  return status

/-- Send `FAILED` and clean up. -/
def workerFails (patience : Nat) (fds : WorkerFds) (status : PvStatus) : ClipM PvStatus := do
  let _ ← sendControl patience .worker .failed
  workerCleanup fds status

/-- A `poll` of two descriptors, repeated while it is interrupted and no stop is requested. -/
def pollPair (patience : Nat) (poll : ClipM PairAnswer) : ClipM PairAnswer :=
  Prog.iterate (fun _ : Unit => do
    match ← poll with
    | .interrupted =>
      let stop ← clip .stopRequested
      return if stop = true then .inr .failed else .inl ()
    | answer => return .inr answer) patience ()

/-- `owner_has_exited`, where the owner has no descriptor to poll. -/
def ownerGone (pidfd : Bool) : ClipM Bool :=
  clipIf (!pidfd) (clip .ownerHasExited) false

/-- A round of `wait_for_done`, with the events of the control descriptor and the owner. -/
def waitForDoneRound (patience : Nat) (pidfd : Bool) : ClipM (Unit ⊕ Bool) := do
  let answer ← pollPair patience (clip (.pollDone pidfd))
  let stop ← clip .stopRequested
  if stop = true ∨ answer = .failed ∨ answer = .interrupted then
    return .inr false
  else
    let gone ← ownerGone pidfd
    if gone = true then
      return .inr false
    else
      match answer with
      | .events control owner hangup =>
        if pidfd = true ∧ owner = true then
          clip .reapOwner
          return .inr false
        else if control = true then
          let message ← receiveControl patience .worker
          return .inr (decide (message = some .done))
        else
          return if hangup = true then .inr false else .inl ()
      | _ => return .inl ()

/-- `wait_for_done`: did it return zero? -/
def waitForDone (patience : Nat) (pidfd : Bool) : ClipM Bool :=
  Prog.iterate (fun _ => waitForDoneRound patience pidfd) patience ()

/-- What `wait_for_owner_or_timeout` returns. -/
inductive TtlResult where
  | failed
  | ownerExited
  | expired
  deriving DecidableEq, Repr

/-- A round of `wait_for_owner_or_timeout`, with the events of the timer and the owner. -/
def waitTtlRound (patience : Nat) (pidfd : Bool) : ClipM (Unit ⊕ TtlResult) := do
  let answer ← pollPair patience (clip (.pollTtl pidfd))
  let stop ← clip .stopRequested
  if stop = true ∨ answer = .failed ∨ answer = .interrupted then
    return .inr .failed
  else
    let gone ← ownerGone pidfd
    if gone = true then
      return .inr .ownerExited
    else
      match answer with
      | .events timer owner _ =>
        if pidfd = true ∧ owner = true then
          clip .reapOwner
          return .inr .ownerExited
        else if timer = true then
          let read ← clip .readTimer
          return if read = true then .inr .expired else .inr .failed
        else
          return .inl ()
      | _ => return .inl ()

/-- `wait_for_owner_or_timeout`. -/
def waitForOwnerOrTimeout (patience : Nat) (pidfd : Bool) : ClipM TtlResult :=
  Prog.iterate (fun _ => waitTtlRound patience pidfd) patience ()

/-- `worker_loop` up to the report of its setup. -/
def workerSetup : ClipM PvStatus := do
  let normal ← clip (.prepareWorker .normalizeSignals)
  if normal = false then
    return .errIo
  else
    let data ← clip (.prepareWorker (.closeOnExec .workerData))
    let control ← clipIf data (clip (.prepareWorker (.closeOnExec .workerControl))) false
    let setup ← clipIf control (clip (.prepareWorker (.closeOnExec .workerSetup))) false
    let handlers ← clipIf setup (clip (.prepareWorker .stopHandlers)) false
    if handlers = false then
      return .errIo
    else
      let backend ← clip (.prepareWorker .chooseBackend)
      return if backend = true then .ok else .errExternal

/-- `worker_loop` after `ACCEPTED`: the TTL wait. -/
def workerServe (patience : Nat) (fds : WorkerFds) : ClipM PvStatus := do
  closeIfOpen fds.control .workerControl
  let fds := { fds with control := false }
  match ← waitForOwnerOrTimeout patience fds.pidfd with
  | .failed => workerCleanup fds .errIo
  | .ownerExited => workerCleanup { fds with owner := false } .ok
  | .expired =>
    clip .terminateOwner
    workerCleanup { fds with owner := false } .ok

/-- `worker_loop` after `DONE`: arm the timer and accept. -/
def workerAccept (patience ttlSeconds : Nat) (fds : WorkerFds) : ClipM PvStatus := do
  let armed ← clip (.setTimer ttlSeconds)
  if armed = false then
    workerFails patience fds .errIo
  else
    let stop ← clip .stopRequested
    let exited ← clipIf (!stop) (clip .ownerHasExited) true
    if exited = true then
      workerFails patience fds .errExternal
    else
      let sent ← sendControl patience .worker .accepted
      if sent = false then workerCleanup fds .errIo else workerServe patience fds

/-- `worker_loop` with an owner: `READY`, and the wait for `DONE`. -/
def workerOwn (patience ttlSeconds : Nat) (fds : WorkerFds) : ClipM PvStatus := do
  closeIfOpen fds.data .workerData
  let pidfd ← clip .openPidfd
  let fds := { fds with data := false, pidfd }
  let timer ← clip .createTimer
  if timer = false then
    workerFails patience fds .errIo
  else
    let fds := { fds with timer }
    let sent ← sendControl patience .worker .ready
    if sent = false then
      workerCleanup fds .errIo
    else
      let done ← waitForDone patience pidfd
      if done = false then workerFails patience fds .errExternal
      else workerAccept patience ttlSeconds fds

/-- `worker_loop` after its setup: `START`, and the owner. -/
def workerStart (patience ttlSeconds : Nat) (fds : WorkerFds) : ClipM PvStatus := do
  let message ← receiveControl patience .worker
  if message ≠ some .startText ∧ message ≠ some .startBinary then
    workerCleanup fds .errState
  else
    let stop ← clip .stopRequested
    if stop = true then
      workerCleanup fds .errState
    else
      let spawned ← clip (.spawnOwner (decide (message = some .startText)))
      if spawned = false then workerFails patience fds .errExternal
      else workerOwn patience ttlSeconds { fds with owner := true }

/-- `worker_loop`. -/
def workerLoop (patience ttlSeconds : Nat) : ClipM PvStatus := do
  let status ← workerSetup
  let reported ← clip (.reportSetup status)
  let status := if reported = false then .errIo else status
  clip (.closeFd .workerSetup)
  let fds : WorkerFds := ⟨true, true, false, false, false, false⟩
  if status ≠ .ok then workerCleanup fds status else workerStart patience ttlSeconds fds

/-! ## The world -/

/-- The two channels, the descriptors of the client, and what has happened so far. -/
structure Clip where
  /-- messages under way to the worker, the next one first -/
  toWorker : List ClipMessage
  /-- messages under way to the client -/
  toClient : List ClipMessage
  /-- all bytes that were written to the pipe -/
  pipe : Bytes
  writeOpen : Bool
  controlOpen : Bool
  /-- the worker has spawned the owner -/
  ownerSpawned : Bool
  /-- the worker has sent `READY` -/
  readySent : Bool
  /-- the worker has received `DONE` -/
  doneReceived : Bool
  /-- the worker has armed the timer -/
  timerArmed : Bool
  /-- the worker has sent `ACCEPTED` -/
  acceptedSent : Bool
  /-- the worker has entered the TTL wait -/
  ttlWait : Bool

/-- The answers that a call can get. -/
def Clip.Allowed (w : Clip) : (op : ClipOp) → ClipRes op → Prop
  | .receive .client, .message m => w.toClient.head? = some m
  | .receive .worker, .message m => w.toWorker.head? = some m
  | .writeData chunk, .wrote n => n ≤ chunk.length
  | _, _ => True

/-- The world after a call with its answer. -/
def Clip.effect (w : Clip) : (op : ClipOp) → ClipRes op → Clip
  | .writeControl .client m, .sent => { w with toWorker := w.toWorker ++ [m] }
  | .writeControl .worker m, .sent =>
    { w with
      toClient := w.toClient ++ [m]
      readySent := w.readySent || decide (m = .ready)
      acceptedSent := w.acceptedSent || decide (m = .accepted) }
  | .receive .client, .message _ => { w with toClient := w.toClient.tail }
  | .receive .worker, .message m =>
    { w with
      toWorker := w.toWorker.tail
      doneReceived := w.doneReceived || decide (m = .done) }
  | .writeData chunk, .wrote n => { w with pipe := w.pipe ++ chunk.take n }
  | .closeFd .clientWrite, _ => { w with writeOpen := false }
  | .closeFd .clientControl, _ => { w with controlOpen := false }
  | .spawnOwner _, true => { w with ownerSpawned := true }
  | .setTimer _, true => { w with timerArmed := true }
  | .pollTtl _, _ => { w with ttlWait := true }
  | _, _ => w

/-- A call. -/
def Clip.Step (w : Clip) (op : ClipOp) (r : ClipRes op) (w' : Clip) : Prop :=
  w.Allowed op r ∧ w' = w.effect op r

/-- The channels before the client's first call. -/
def Clip.fresh : Clip :=
  ⟨[], [], [], true, true, false, false, false, false, false, false⟩

end PVault
