import PVault.Clipboard

/-!
# Safety of the clipboard hand-off

Client and worker are verified one by one, each against what the other may do
(`WorkerActs`, `ClientActs`); both keep the invariant `Clip.Ok`, which ties the messages under
way and the bytes in the pipe to what the worker has done. The rule of parallel composition
then gives `clipboard_handoff`, for every interleaving and whatever the calls answer.
-/

namespace PVault

open Binary Conc

/-! ## The invariant -/

/-- What a message or a byte under way says about the worker. -/
structure Clip.Ok (w : Clip) : Prop where
  ready : .ready ∈ w.toClient → w.readySent = true
  spawned : w.readySent = true → w.ownerSpawned = true
  accepted : .accepted ∈ w.toClient → w.acceptedSent = true
  served : w.acceptedSent = true → w.doneReceived = true ∧ w.timerArmed = true
  waits : w.ttlWait = true → w.doneReceived = true ∧ w.timerArmed = true
  written : w.pipe ≠ [] → w.readySent = true

/-- What the worker may do: nothing to the client's side, and nothing is undone. -/
structure WorkerActs (w w' : Clip) : Prop where
  pipe_eq : w'.pipe = w.pipe
  writeOpen_eq : w'.writeOpen = w.writeOpen
  controlOpen_eq : w'.controlOpen = w.controlOpen
  readySent : w.readySent = true → w'.readySent = true
  acceptedSent : w.acceptedSent = true → w'.acceptedSent = true
  ok : w.Ok → w'.Ok

/-- What the client may do: nothing to what the worker has done. -/
structure ClientActs (w w' : Clip) : Prop where
  ownerSpawned_eq : w'.ownerSpawned = w.ownerSpawned
  readySent_eq : w'.readySent = w.readySent
  doneReceived_eq : w'.doneReceived = w.doneReceived
  timerArmed_eq : w'.timerArmed = w.timerArmed
  acceptedSent_eq : w'.acceptedSent = w.acceptedSent
  ttlWait_eq : w'.ttlWait = w.ttlWait
  ok : w.Ok → w'.Ok

theorem WorkerActs.refl (w : Clip) : WorkerActs w w := ⟨rfl, rfl, rfl, id, id, id⟩

theorem WorkerActs.trans {a b c : Clip} (h : WorkerActs a b) (h' : WorkerActs b c) :
    WorkerActs a c :=
  ⟨h'.pipe_eq.trans h.pipe_eq, h'.writeOpen_eq.trans h.writeOpen_eq,
    h'.controlOpen_eq.trans h.controlOpen_eq, h'.readySent ∘ h.readySent,
    h'.acceptedSent ∘ h.acceptedSent, h'.ok ∘ h.ok⟩

theorem ClientActs.refl (w : Clip) : ClientActs w w := ⟨rfl, rfl, rfl, rfl, rfl, rfl, id⟩

theorem ClientActs.trans {a b c : Clip} (h : ClientActs a b) (h' : ClientActs b c) :
    ClientActs a c :=
  ⟨h'.ownerSpawned_eq.trans h.ownerSpawned_eq, h'.readySent_eq.trans h.readySent_eq,
    h'.doneReceived_eq.trans h.doneReceived_eq, h'.timerArmed_eq.trans h.timerArmed_eq,
    h'.acceptedSent_eq.trans h.acceptedSent_eq, h'.ttlWait_eq.trans h.ttlWait_eq, h'.ok ∘ h.ok⟩

/-- How each party runs next to the other. -/
def clipSem : Party → Sem ClipRes Clip
  | .client => ⟨Clip.Step, WorkerActs, ClientActs, True⟩
  | .worker => ⟨Clip.Step, ClientActs, WorkerActs, True⟩

theorem clipSem_compatible : Compatible clipSem fun _ _ => False where
  refl i w := by cases i <;> first | exact WorkerActs.refl w | exact ClientActs.refl w
  trans i a b c h h' := by
    cases i with
    | client => exact WorkerActs.trans h h'
    | worker => exact ClientActs.trans h h'
  keeps i j hij a b h := by
    cases i <;> cases j <;> first | exact absurd rfl hij | exact h
  env _ _ _ h := h.elim

/-! ## Programs that keep an assertion -/

theorem keeps_clipIf {S : Sem ClipRes Clip} {A : Clip → Prop} {α : Type} {condition : Bool}
    {x : ClipM α} (h : S.Keeps A x) (otherwise : α) : S.Keeps A (clipIf condition x otherwise) :=
  .ite h (Sem.keeps_ret _)

/-- A call without effect. -/
def ClipOp.Quiet (op : ClipOp) : Prop := ∀ w r, Clip.effect w op r = w

/-- An assertion that calls without effect keep. -/
structure Steady (S : Sem ClipRes Clip) (A : Clip → Prop) : Prop where
  spins : S.diverges
  quiet : ∀ op : ClipOp, op.Quiet → S.Keeps A (clip op)

namespace Steady

variable {S : Sem ClipRes Clip} {A : Clip → Prop}

theorem drainSignals (h : Steady S A) (patience : Nat) : S.Keeps A (drainSignals patience) :=
  Sem.keeps_iterate h.spins (fun _ => (h.quiet _ fun _ _ => rfl).bind fun _ => Sem.keeps_ret _)
    patience ()

/-- Around the write of a message only signals are handled. -/
theorem sendControl (h : Steady S A) (patience : Nat) {who : Party} {m : ClipMessage}
    (hwrite : S.Keeps A (clip (.writeControl who m))) :
    S.Keeps A (sendControl patience who m) := by
  refine (h.quiet _ fun _ _ => rfl).bind fun blocked => .ite (Sem.keeps_ret _) ?_
  refine (h.quiet _ fun _ _ => rfl).bind fun pending => ?_
  cases pending with
  | none => exact (h.quiet _ fun _ _ => rfl).bind fun _ => Sem.keeps_ret _
  | some pending =>
    refine Sem.Keeps.bind ?_ fun answer => ?_
    · exact Sem.keeps_iterate h.spins (fun _ => hwrite.bind fun _ => Sem.keeps_ret _) patience ()
    · refine (keeps_clipIf (h.drainSignals patience) _).bind fun _ => ?_
      exact (h.quiet _ fun _ _ => rfl).bind fun _ => Sem.keeps_ret _

theorem pollOne (h : Steady S A) (patience : Nat) : S.Keeps A (pollOne patience) := by
  refine Sem.keeps_iterate h.spins (fun _ => ?_) patience ()
  refine (h.quiet _ fun _ _ => rfl).bind fun answer => ?_
  cases answer with
  | interrupted => exact (h.quiet _ fun _ _ => rfl).bind fun _ => Sem.keeps_ret _
  | _ => exact Sem.keeps_ret _

theorem pollSecret (h : Steady S A) (patience : Nat) : S.Keeps A (pollSecret patience) :=
  Sem.keeps_iterate h.spins (fun _ => (h.quiet _ fun _ _ => rfl).bind fun _ => Sem.keeps_ret _)
    patience ()

theorem pollPair (h : Steady S A) (patience : Nat) {poll : ClipM PairAnswer}
    (hpoll : S.Keeps A poll) : S.Keeps A (pollPair patience poll) := by
  refine Sem.keeps_iterate h.spins (fun _ => hpoll.bind fun answer => ?_) patience ()
  cases answer with
  | interrupted => exact (h.quiet _ fun _ _ => rfl).bind fun _ => Sem.keeps_ret _
  | _ => exact Sem.keeps_ret _

theorem ownerGone (h : Steady S A) (pidfd : Bool) : S.Keeps A (ownerGone pidfd) :=
  keeps_clipIf (h.quiet _ fun _ _ => rfl) _

end Steady

/-! ## The client's side -/

/-- What the client knows of the world: its own side, and messages of the worker it has
received. -/
structure ClientView where
  pipe : Bytes
  writeOpen : Bool
  controlOpen : Bool
  ready : Bool
  accepted : Bool

/-- The world is as the client knows it. -/
structure ClientAt (v : ClientView) (w : Clip) : Prop where
  ok : w.Ok
  pipe_eq : w.pipe = v.pipe
  writeOpen_eq : w.writeOpen = v.writeOpen
  controlOpen_eq : w.controlOpen = v.controlOpen
  ready : v.ready = true → w.readySent = true
  accepted : v.accepted = true → w.acceptedSent = true

theorem ClientAt.rely {v : ClientView} {w w' : Clip} (h : ClientAt v w) (hacts : WorkerActs w w') :
    ClientAt v w' :=
  ⟨hacts.ok h.ok, hacts.pipe_eq.trans h.pipe_eq, hacts.writeOpen_eq.trans h.writeOpen_eq,
    hacts.controlOpen_eq.trans h.controlOpen_eq, hacts.readySent ∘ h.ready,
    hacts.acceptedSent ∘ h.accepted⟩

section Client

variable {α : Type} {Q : α → Clip → Prop} {w : Clip} {v : ClientView}
variable {secret : Bytes} {job : ClipJob}

/-- A call of the client. -/
theorem wp_client {op : ClipOp} {k : ClipRes op → ClipM α} (h : ClientAt v w)
    (hk : ∀ w₁ r, ClientAt v w₁ → w₁.Allowed op r → ClientActs w₁ (w₁.effect op r) ∧
      (clipSem .client).wp (k r) Q (w₁.effect op r)) :
    (clipSem .client).wp (clip op >>= k) Q w := by
  intro w₁ hacts r w₂ hstep
  obtain ⟨hallowed, rfl⟩ := hstep
  exact hk w₁ r (h.rely hacts) hallowed

theorem client_steady (v : ClientView) : Steady (clipSem .client) (ClientAt v) where
  spins := trivial
  quiet op hquiet _ h := wp_client h fun w₁ r h₁ _ => by
    rw [hquiet]
    exact ⟨ClientActs.refl w₁, h₁⟩

/-- Sending a message changes nothing the client knows. -/
theorem keeps_client_sendControl (patience : Nat) (m : ClipMessage) :
    (clipSem .client).Keeps (ClientAt v) (sendControl patience .client m) := by
  refine (client_steady v).sendControl patience fun w h => wp_client h fun w₁ r h₁ _ => ?_
  cases r with
  | sent =>
    exact ⟨⟨rfl, rfl, rfl, rfl, rfl, rfl, fun h => { h with }⟩, { h₁ with ok := { h₁.ok with } }⟩
  | _ => exact ⟨ClientActs.refl w₁, h₁⟩

/-- What the client knows once it has received a message. -/
def ClientView.learn (v : ClientView) : Option ClipMessage → ClientView
  | some .ready => { v with ready := true }
  | some .accepted => { v with accepted := true }
  | _ => v

/-- Taking a message off the channel tells the client what the worker has done. -/
theorem ClientAt.receive {m : ClipMessage} (h : ClientAt v w) (hhead : w.toClient.head? = some m) :
    ClientActs w { w with toClient := w.toClient.tail } ∧
      ClientAt (v.learn (some m)) { w with toClient := w.toClient.tail } := by
  have hmem : m ∈ w.toClient := List.mem_of_mem_head? hhead
  have hok : Clip.Ok { w with toClient := w.toClient.tail } :=
    { h.ok with
      ready := fun hm => h.ok.ready (List.mem_of_mem_tail hm)
      accepted := fun hm => h.ok.accepted (List.mem_of_mem_tail hm) }
  refine ⟨⟨rfl, rfl, rfl, rfl, rfl, rfl, fun _ => hok⟩, ?_⟩
  cases m with
  | ready => exact { h with ok := hok, ready := fun _ => h.ok.ready hmem }
  | accepted => exact { h with ok := hok, accepted := fun _ => h.ok.accepted hmem }
  | _ => exact { h with ok := hok }

theorem receiveControl_client_spec (patience : Nat) (h : ClientAt v w) :
    (clipSem .client).wp (receiveControl patience .client)
      (fun m w' => ClientAt (v.learn m) w') w := by
  refine Sem.wp_iterate (fun _ => ClientAt v) trivial (fun _ w h => ?_) patience h
  refine wp_client h fun w₁ r h₁ hallowed => ?_
  cases r with
  | message m =>
    obtain ⟨hacts, hat⟩ := h₁.receive hallowed
    exact ⟨hacts, hat⟩
  | interrupted =>
    refine ⟨ClientActs.refl w₁, Sem.wp_then ((client_steady _).quiet _ (fun _ _ => rfl) w₁ h₁) ?_⟩
    intro stop w₂ h₂
    show (clipSem .client).wp (.ret _) _ w₂
    split_ifs
    · exact h₂
    · exact h₂
  | _ => exact ⟨ClientActs.refl w₁, h₁⟩

/-- What the client knows of its own side. -/
def ClientView.SameSide (v v' : ClientView) : Prop :=
  v'.pipe = v.pipe ∧ v'.writeOpen = v.writeOpen ∧ v'.controlOpen = v.controlOpen

theorem ClientView.sameSide_learn (v : ClientView) (m : Option ClipMessage) :
    v.SameSide (v.learn m) := by
  rcases m with _ | m
  · exact ⟨rfl, rfl, rfl⟩
  · cases m <;> exact ⟨rfl, rfl, rfl⟩

/-- The client goes on only after the message it waits for. -/
theorem waitForOwner_spec (patience : Nat) (expected : ClipMessage) (h : ClientAt v w) :
    (clipSem .client).wp (waitForOwner patience expected)
      (fun status w' => ∃ v', ClientAt v' w' ∧ v.SameSide v' ∧
        (status = .ok → v' = v.learn (some expected))) w := by
  have hfail : ∀ {status : PvStatus} {w : Clip}, status ≠ .ok → ClientAt v w →
      ∃ v', ClientAt v' w ∧ v.SameSide v' ∧ (status = .ok → v' = v.learn (some expected)) :=
    fun hne h => ⟨v, h, ⟨rfl, rfl, rfl⟩, fun hok => absurd hok hne⟩
  refine Sem.wp_then ((client_steady v).pollOne patience w h) fun answer w₁ h₁ => ?_
  cases answer with
  | ready =>
    refine Sem.wp_then (receiveControl_client_spec patience h₁) fun m w₂ h₂ => ?_
    rcases m with _ | m
    · exact hfail nofun h₂
    · refine ⟨_, h₂, v.sameSide_learn _, fun hok => ?_⟩
      by_cases hm : m = expected
      · rw [hm]
      · rw [if_neg hm] at hok
        cases hok
  | idle => exact hfail nofun h₁
  | interrupted => exact hfail nofun h₁
  | failed => exact hfail nofun h₁

/-- The first `n` bytes of the secret have been written. -/
def ClientView.wrote (v : ClientView) (secret : Bytes) (n : Nat) : ClientView :=
  { v with pipe := v.pipe ++ secret.take n }

/-- Bytes are written only once the worker has sent `READY`. -/
theorem ClientAt.write {offset n : Nat} (hready : v.ready = true)
    (h : ClientAt (v.wrote secret offset) w) :
    ClientActs w { w with pipe := w.pipe ++ (secret.drop offset).take n } ∧
      ClientAt (v.wrote secret (offset + n))
        { w with pipe := w.pipe ++ (secret.drop offset).take n } := by
  have hok : Clip.Ok { w with pipe := w.pipe ++ (secret.drop offset).take n } :=
    { h.ok with written := fun _ => h.ready hready }
  refine ⟨⟨rfl, rfl, rfl, rfl, rfl, rfl, fun _ => hok⟩, { h with ok := hok, pipe_eq := ?_ }⟩
  show w.pipe ++ _ = v.pipe ++ secret.take (offset + n)
  rw [h.pipe_eq, List.take_add, ← List.append_assoc]
  rfl

/-- A prefix of the secret has been written, and all of it if the status is `PV_OK`. -/
def Written (v : ClientView) (secret : Bytes) (status : PvStatus) (w : Clip) : Prop :=
  ∃ n, ClientAt (v.wrote secret n) w ∧ (status = .ok → secret.length ≤ n)

theorem writeSecretRound_spec (patience : Nat) (secret : Bytes) (hready : v.ready = true)
    (offset : Nat) (w : Clip) (h : ClientAt (v.wrote secret offset) w) :
    (clipSem .client).wp (writeSecretRound patience secret offset)
      (LoopPost (fun offset => ClientAt (v.wrote secret offset))
        fun r => Written v secret r.1) w := by
  have hfail : ∀ {w : Clip}, ClientAt (v.wrote secret offset) w →
      Written v secret .errExternal w := fun h => ⟨offset, h, nofun⟩
  by_cases hend : offset ≥ secret.length
  · rw [writeSecretRound, if_pos hend]
    exact ⟨offset, h, fun _ => hend⟩
  · rw [writeSecretRound, if_neg hend]
    refine wp_client h fun w₁ answer h₁ _ => ?_
    cases answer with
    | wrote n =>
      obtain ⟨hacts, hat⟩ := h₁.write (n := n) hready
      refine ⟨hacts, ?_⟩
      show (clipSem .client).wp (.ret (if n > 0 then _ else _)) _ _
      split_ifs
      · exact hat
      · exact ⟨_, hat, nofun⟩
    | again =>
      refine ⟨ClientActs.refl w₁, Sem.wp_then ((client_steady _).pollSecret patience w₁ h₁) ?_⟩
      intro answer w₂ h₂
      show (clipSem .client).wp (.ret (if answer = .ready then _ else _)) _ w₂
      split_ifs
      · exact h₂
      · exact hfail h₂
    | interrupted => exact ⟨ClientActs.refl w₁, h₁⟩
    | broken => exact ⟨ClientActs.refl w₁, hfail h₁⟩
    | failed => exact ⟨ClientActs.refl w₁, hfail h₁⟩

theorem writeSecret_spec (patience : Nat) (secret : Bytes) (hready : v.ready = true)
    (h : ClientAt v w) :
    (clipSem .client).wp (writeSecret patience secret) (Written v secret) w := by
  have hzero : v.wrote secret 0 = v := by
    rw [ClientView.wrote, List.take_zero, List.append_nil]
  have hnone : ∀ {w : Clip}, ClientAt v w → Written v secret .errIo w :=
    fun h => ⟨0, hzero.symm ▸ h, nofun⟩
  refine Sem.wp_then ((client_steady _).quiet _ (fun _ _ => rfl) w h) fun blocked w₁ h₁ => ?_
  split_ifs
  · exact hnone h₁
  · refine Sem.wp_then ((client_steady _).quiet _ (fun _ _ => rfl) w₁ h₁) fun pending w₂ h₂ => ?_
    cases pending with
    | none =>
      exact Sem.wp_then ((client_steady _).quiet _ (fun _ _ => rfl) w₂ h₂) fun _ w₃ h₃ => hnone h₃
    | some pending =>
      refine Sem.wp_then (Sem.wp_iterate _ trivial (writeSecretRound_spec patience secret hready)
        patience (hzero.symm ▸ h₂)) ?_
      rintro ⟨status, broken⟩ w₃ ⟨n, h₃, hall⟩
      refine Sem.wp_then (keeps_clipIf ((client_steady _).drainSignals patience) _ w₃ h₃) ?_
      intro _ w₄ h₄
      refine Sem.wp_then ((client_steady _).quiet _ (fun _ _ => rfl) w₄ h₄) fun restored w₅ h₅ => ?_
      refine ⟨n, h₅, fun hok => hall ?_⟩
      split_ifs at hok
      exact hok

/-- The view of a client whose write and control descriptors are open as the job says. -/
def ClientView.Holds (v : ClientView) (job : ClipJob) : Prop :=
  v.writeOpen = job.writeFd ∧ v.controlOpen = job.controlFd

/-- The descriptors of the client that the world keeps. -/
def ClientView.close (v : ClientView) : ClipFd → ClientView
  | .clientWrite => { v with writeOpen := false }
  | .clientControl => { v with controlOpen := false }
  | _ => v

theorem ClientAt.close (h : ClientAt v w) (fd : ClipFd) :
    ClientActs w (w.effect (.closeFd fd) ()) ∧ ClientAt (v.close fd) (w.effect (.closeFd fd) ()) := by
  cases fd with
  | clientWrite =>
    exact ⟨⟨rfl, rfl, rfl, rfl, rfl, rfl, fun h => { h with }⟩,
      { h with ok := { h.ok with }, writeOpen_eq := rfl }⟩
  | clientControl =>
    exact ⟨⟨rfl, rfl, rfl, rfl, rfl, rfl, fun h => { h with }⟩,
      { h with ok := { h.ok with }, controlOpen_eq := rfl }⟩
  | _ => exact ⟨ClientActs.refl w, h⟩

theorem closeIfOpen_spec {isOpen : Bool} {fd : ClipFd} (h : ClientAt v w)
    (hclosed : isOpen = false → v.close fd = v) :
    (clipSem .client).wp (closeIfOpen isOpen fd) (fun _ w' => ClientAt (v.close fd) w') w := by
  cases isOpen with
  | true => exact wp_client h fun w₁ _ h₁ _ => h₁.close fd
  | false =>
    show ClientAt (v.close fd) w
    rwa [hclosed rfl]

theorem ClientView.Holds.close_write (h : v.Holds job) (hfd : job.writeFd = false) :
    v.close .clientWrite = v := by
  rw [ClientView.close, ← hfd, ← h.1]

theorem ClientView.Holds.close_control (h : v.Holds job) (hfd : job.controlFd = false) :
    v.close .clientControl = v := by
  rw [ClientView.close, ← hfd, ← h.2]

/-- The view with both descriptors closed. -/
def ClientView.closed (v : ClientView) : ClientView :=
  { v with writeOpen := false, controlOpen := false }

theorem ClientView.closed_eq (hw : v.writeOpen = false) (hc : v.controlOpen = false) :
    v.closed = v := by
  cases v
  cases hw
  cases hc
  rfl

theorem pvClipboardCancel_spec (h : ClientAt v w) (hjob : v.Holds job) :
    (clipSem .client).wp (pvClipboardCancel job)
      (fun job' w' => job' = ⟨false, false, false, false⟩ ∧ ClientAt v.closed w') w := by
  refine Sem.wp_then (closeIfOpen_spec h hjob.close_write) fun _ w₁ h₁ => ?_
  refine Sem.wp_then (closeIfOpen_spec h₁ fun hfd => ?_) fun _ w₂ h₂ => ?_
  · have hjob₁ : (v.close .clientWrite).Holds { job with writeFd := false } := ⟨rfl, hjob.2⟩
    exact hjob₁.close_control hfd
  · refine Sem.wp_then (keeps_clipIf ((client_steady _).quiet _ fun _ _ => rfl) _ w₂ h₂) fun _ w₃ h₃ => ?_
    refine Sem.wp_then (closeIfOpen_spec h₃ fun _ => rfl) fun _ w₄ h₄ => ?_
    exact ⟨rfl, h₄⟩

/-! ### A session -/

/-- The job is closed. -/
def ClipJob.Closed (job : ClipJob) : Prop := job.writeFd = false ∧ job.controlFd = false

/-- What a call that attempted the transfer of `secret` leaves: everything closed, and after
`PV_OK` the whole secret in the pipe and the worker's `ACCEPTED` received. -/
def Attempted (secret : Bytes) (r : PvStatus × ClipJob) (w : Clip) : Prop :=
  r.2.Closed ∧ ∃ v, ClientAt v w ∧ v.writeOpen = false ∧ v.controlOpen = false ∧
    (r.1 = .ok → v.pipe = secret ∧ v.accepted = true)

theorem cancelWith_spec {status : PvStatus} (secret : Bytes) (h : ClientAt v w)
    (hjob : v.Holds job) (hstatus : status ≠ .ok) :
    (clipSem .client).wp (cancelWith job status) (Attempted secret) w := by
  refine Sem.wp_then (pvClipboardCancel_spec h hjob) ?_
  rintro job' w' ⟨rfl, h'⟩
  exact ⟨⟨rfl, rfl⟩, _, h', rfl, rfl, fun hok => absurd hok hstatus⟩

/-- Once the secret is in the pipe and the write end closed, `PV_OK` means that the worker
has accepted it. -/
theorem finishSend_spec (patience : Nat) (h : ClientAt v w) (hjob : v.Holds job)
    (hwrite : v.writeOpen = false) :
    (clipSem .client).wp (finishSend patience job) (Attempted v.pipe) w := by
  refine Sem.wp_then (keeps_client_sendControl patience .done w h) fun sent w₁ h₁ => ?_
  split_ifs
  · exact cancelWith_spec _ h₁ hjob nofun
  · refine Sem.wp_then (waitForOwner_spec patience .accepted h₁) ?_
    rintro status w₂ ⟨v', h₂, ⟨hpipe, hw, hc⟩, hok⟩
    have hjob' : v'.Holds job := ⟨hw.trans hjob.1, hc.trans hjob.2⟩
    split_ifs with hstatus
    · exact cancelWith_spec _ h₂ hjob' hstatus
    · have hv' : v' = { v with accepted := true } := hok (not_not.mp hstatus)
      refine Sem.wp_then (closeIfOpen_spec h₂ hjob'.close_control) fun _ w₃ h₃ => ?_
      refine Sem.wp_then (closeIfOpen_spec h₃ fun _ => rfl) fun _ w₄ h₄ => ?_
      refine ⟨⟨hjob.1.symm.trans hwrite, rfl⟩, _, h₄, hw.trans hwrite, rfl, fun _ => ?_⟩
      exact ⟨hpipe, by rw [hv']; rfl⟩

theorem transferSecret_spec (patience : Nat) (h : ClientAt v w) (hjob : v.Holds job)
    (hpipe : v.pipe = []) :
    (clipSem .client).wp (transferSecret patience job secret) (Attempted secret) w := by
  refine Sem.wp_then (waitForOwner_spec patience .ready h) ?_
  rintro status w₁ ⟨v', h₁, ⟨hp, hw, hc⟩, hok⟩
  have hjob' : v'.Holds job := ⟨hw.trans hjob.1, hc.trans hjob.2⟩
  split_ifs with hstatus
  · exact cancelWith_spec _ h₁ hjob' hstatus
  · obtain rfl : v' = v.learn (some .ready) := hok (not_not.mp hstatus)
    refine Sem.wp_then (writeSecret_spec patience secret rfl h₁) ?_
    rintro status w₂ ⟨n, h₂, hall⟩
    refine Sem.wp_then (closeIfOpen_spec h₂ (ClientView.Holds.close_write hjob')) fun _ w₃ h₃ => ?_
    have hjob₃ : ClientView.Holds ((ClientView.wrote (v.learn (some .ready)) secret n).close
        .clientWrite) { job with writeFd := false } := ⟨rfl, hjob'.2⟩
    split_ifs with hstatus
    · exact cancelWith_spec _ h₃ hjob₃ hstatus
    · have hend := finishSend_spec patience h₃ hjob₃ rfl
      have hsecret : ((ClientView.wrote (v.learn (some .ready)) secret n).close
          .clientWrite).pipe = secret := by
        show v.pipe ++ secret.take n = secret
        rw [hpipe, List.take_of_length_le (hall (not_not.mp hstatus)), List.nil_append]
      rwa [hsecret] at hend

/-- A secret that `pv_clipboard_send` does not refuse for its size. -/
def Sendable (secret : Bytes) : Prop := secret ≠ [] ∧ secret.length ≤ pvMaxPlaintext

/-- `pv_clipboard_send` of a secret that has an acceptable size attempts the transfer if the
job is open. -/
theorem pvClipboardSend_spec (patience : Nat) (h : ClientAt v w) (hjob : v.Holds job)
    (hpipe : v.pipe = []) (hopen : job.writeFd = true) (hcontrol : job.controlFd = true)
    (hsup : job.supervisor = true) (hsize : Sendable secret) :
    (clipSem .client).wp (pvClipboardSend patience job secret) (Attempted secret) w := by
  have hlen : secret.length ≠ 0 := fun h0 => hsize.1 (List.length_eq_zero_iff.mp h0)
  have husable : ¬(secret.length = 0 ∨ job.writeFd = false ∨ job.controlFd = false ∨
      job.supervisor = false) := by
    simp [hlen, hopen, hcontrol, hsup]
  rw [pvClipboardSend, if_neg husable, if_neg (Nat.not_lt.mpr hsize.2)]
  refine Sem.wp_then (keeps_client_sendControl patience _ w h) fun sent w₁ h₁ => ?_
  split_ifs
  · exact cancelWith_spec _ h₁ hjob nofun
  · exact transferSecret_spec patience h₁ hjob hpipe

/-- A secret of another size, or a closed job, is refused without a call. -/
theorem pvClipboardSend_refused (patience : Nat) (secret : Bytes)
    (h : ¬Sendable secret ∨ job.Closed) :
    ∃ status, status ≠ .ok ∧ pvClipboardSend patience job secret = .ret (status, job) := by
  rw [pvClipboardSend]
  split_ifs with husable hlimit
  · exact ⟨.errUsage, nofun, rfl⟩
  · exact ⟨.errLimit, nofun, rfl⟩
  · push Not at husable
    rcases h with h | h
    · refine absurd ⟨?_, Nat.not_lt.mp hlimit⟩ h
      exact List.length_pos_iff.mp (Nat.pos_of_ne_zero husable.1)
    · exact absurd h.1 husable.2.1

/-- The secret that a call has delivered, if it returned `PV_OK`. -/
def ClipCall.delivered : ClipCall → PvStatus → List Bytes
  | .send secret, .ok => [secret]
  | _, _ => []

/-- The secrets for which `pv_clipboard_send` returned `PV_OK`. -/
def acceptedSecrets (calls : List ClipCall) (statuses : List PvStatus) : List Bytes :=
  (calls.zip statuses).flatMap fun (call, status) => call.delivered status

theorem acceptedSecrets_cons (call : ClipCall) (calls : List ClipCall) (status : PvStatus)
    (statuses : List PvStatus) : acceptedSecrets (call :: calls) (status :: statuses) =
      call.delivered status ++ acceptedSecrets calls statuses := rfl

/-- Calls after which the job is closed. -/
def ClipCall.Closes : ClipCall → Prop
  | .send secret => Sendable secret
  | .cancel => True

/-- Nothing more is sent over a closed job. -/
theorem clipSession_closed (patience : Nat) (calls : List ClipCall) :
    ∀ {job : ClipJob} {w : Clip}, ClientAt v w → v.Holds job → job.Closed →
      (clipSem .client).wp (clipSession patience calls job)
        (fun r w' => ClientAt v w' ∧ acceptedSecrets calls r.1 = []) w := by
  induction calls with
  | nil => exact fun h _ _ => ⟨h, rfl⟩
  | cons call calls ih =>
    intro job w h hjob hclosed
    cases call with
    | send secret =>
      obtain ⟨status, hne, heq⟩ := pvClipboardSend_refused patience secret (.inr hclosed)
      rw [clipSession, heq, Prog.ret_bind]
      refine Sem.wp_then (ih h hjob hclosed) fun r w₁ h₁ => ⟨h₁.1, ?_⟩
      rw [acceptedSecrets_cons, h₁.2]
      cases status with
      | ok => exact absurd rfl hne
      | _ => rfl
    | cancel =>
      refine Sem.wp_then (pvClipboardCancel_spec h hjob) ?_
      rintro job' w₁ ⟨rfl, h₁⟩
      have hw : v.writeOpen = false := hjob.1.trans hclosed.1
      have hc : v.controlOpen = false := hjob.2.trans hclosed.2
      rw [ClientView.closed_eq hw hc] at h₁
      exact Sem.wp_then (ih h₁ ⟨hw, hc⟩ ⟨rfl, rfl⟩) fun r w₂ h₂ => h₂

/-- What a session leaves. -/
def SessionPost (calls : List ClipCall) (r : List PvStatus × ClipJob) (w : Clip) : Prop :=
  ∃ v, ClientAt v w ∧ ((∃ call ∈ calls, call.Closes) → v.writeOpen = false ∧ v.controlOpen = false) ∧
    ∀ secret ∈ acceptedSecrets calls r.1,
      v.writeOpen = false ∧ v.pipe = secret ∧ v.accepted = true

/-- A session over an open job: until the first call that closes the job nothing happens, and
after it nothing more. -/
theorem clipSession_spec (patience : Nat) (calls : List ClipCall) :
    ∀ {job : ClipJob} {w : Clip}, ClientAt v w → v.Holds job → v.pipe = [] → job.writeFd = true →
      job.controlFd = true → job.supervisor = true →
      (clipSem .client).wp (clipSession patience calls job) (SessionPost calls) w := by
  induction calls with
  | nil => exact fun h _ _ _ _ _ => ⟨v, h, nofun, nofun⟩
  | cons call calls ih =>
    intro job w h hjob hpipe hwrite hcontrol hsup
    cases call with
    | send secret =>
      by_cases hsize : Sendable secret
      · refine Sem.wp_then
          (pvClipboardSend_spec patience h hjob hpipe hwrite hcontrol hsup hsize) ?_
        rintro ⟨status, job'⟩ w₁ ⟨hclosed, v', h₁, hw, hc, hok⟩
        refine Sem.wp_then (clipSession_closed patience calls h₁
          ⟨hw.trans hclosed.1.symm, hc.trans hclosed.2.symm⟩ hclosed) ?_
        rintro ⟨statuses, job''⟩ w₂ ⟨h₂, hnone⟩
        refine ⟨v', h₂, fun _ => ⟨hw, hc⟩, fun secret' hmem => ?_⟩
        rw [acceptedSecrets_cons, hnone, List.append_nil] at hmem
        cases status with
        | ok =>
          obtain rfl := List.mem_singleton.mp hmem
          exact ⟨hw, hok rfl⟩
        | _ => cases hmem
      · obtain ⟨status, hne, heq⟩ := pvClipboardSend_refused patience secret (.inl hsize)
        rw [clipSession, heq, Prog.ret_bind]
        refine Sem.wp_then (ih h hjob hpipe hwrite hcontrol hsup) ?_
        rintro ⟨statuses, job'⟩ w₁ ⟨v', h₁, hcloses, haccepted⟩
        refine ⟨v', h₁, fun hex => hcloses ?_, fun secret' hmem => haccepted secret' ?_⟩
        · obtain ⟨call, hmem, hcall⟩ := hex
          rcases List.mem_cons.mp hmem with rfl | hmem
          · exact absurd hcall hsize
          · exact ⟨call, hmem, hcall⟩
        · rw [acceptedSecrets_cons] at hmem
          cases status with
          | ok => exact absurd rfl hne
          | _ => exact hmem
    | cancel =>
      refine Sem.wp_then (pvClipboardCancel_spec h hjob) ?_
      rintro job' w₁ ⟨rfl, h₁⟩
      refine Sem.wp_then (clipSession_closed patience calls h₁ ⟨rfl, rfl⟩ ⟨rfl, rfl⟩) ?_
      rintro ⟨statuses, job''⟩ w₂ ⟨h₂, hnone⟩
      refine ⟨_, h₂, fun _ => ⟨rfl, rfl⟩, fun secret' hmem => ?_⟩
      rw [acceptedSecrets_cons, hnone] at hmem
      cases hmem

end Client

/-! ## The worker's side -/

/-- What the worker knows it has done. -/
structure WorkerView where
  spawned : Bool
  done : Bool
  armed : Bool

/-- The world is as the worker knows it. -/
structure WorkerAt (v : WorkerView) (w : Clip) : Prop where
  ok : w.Ok
  spawned : v.spawned = true → w.ownerSpawned = true
  done : v.done = true → w.doneReceived = true
  armed : v.armed = true → w.timerArmed = true

theorem WorkerAt.rely {v : WorkerView} {w w' : Clip} (h : WorkerAt v w) (hacts : ClientActs w w') :
    WorkerAt v w' :=
  ⟨hacts.ok h.ok, fun hv => hacts.ownerSpawned_eq.trans (h.spawned hv),
    fun hv => hacts.doneReceived_eq.trans (h.done hv),
    fun hv => hacts.timerArmed_eq.trans (h.armed hv)⟩

section Worker

variable {α : Type} {Q : α → Clip → Prop} {w : Clip} {v : WorkerView}

/-- A call of the worker. -/
theorem wp_worker {op : ClipOp} {k : ClipRes op → ClipM α} (h : WorkerAt v w)
    (hk : ∀ w₁ r, WorkerAt v w₁ → w₁.Allowed op r → WorkerActs w₁ (w₁.effect op r) ∧
      (clipSem .worker).wp (k r) Q (w₁.effect op r)) :
    (clipSem .worker).wp (clip op >>= k) Q w := by
  intro w₁ hacts r w₂ hstep
  obtain ⟨hallowed, rfl⟩ := hstep
  exact hk w₁ r (h.rely hacts) hallowed

theorem worker_steady (v : WorkerView) : Steady (clipSem .worker) (WorkerAt v) where
  spins := trivial
  quiet op hquiet _ h := wp_worker h fun w₁ r h₁ _ => by
    rw [hquiet]
    exact ⟨WorkerActs.refl w₁, h₁⟩

/-- Closing a descriptor of the worker. -/
theorem keeps_worker_closeIfOpen (isOpen : Bool) {fd : ClipFd}
    (hfd : (ClipOp.closeFd fd).Quiet) :
    (clipSem .worker).Keeps (WorkerAt v) (closeIfOpen isOpen fd) :=
  keeps_clipIf ((worker_steady v).quiet _ hfd) _

/-- `READY` is sent by a worker with an owner, and `ACCEPTED` by one that has received `DONE`
and armed the timer. -/
def WorkerView.MaySend (v : WorkerView) : ClipMessage → Prop
  | .ready => v.spawned = true
  | .accepted => v.done = true ∧ v.armed = true
  | _ => True

theorem WorkerAt.send {m : ClipMessage} (h : WorkerAt v w) (hm : v.MaySend m) :
    WorkerActs w (w.effect (.writeControl .worker m) .sent) ∧
      WorkerAt v (w.effect (.writeControl .worker m) .sent) := by
  have hok : Clip.Ok (w.effect (.writeControl .worker m) .sent) := by
    refine { h.ok with ready := ?_, spawned := ?_, accepted := ?_, served := ?_, written := ?_ }
    · intro hmem
      rcases List.mem_append.mp hmem with hmem | hmem
      · exact Bool.or_eq_true_iff.mpr (.inl (h.ok.ready hmem))
      · exact Bool.or_eq_true_iff.mpr (.inr (decide_eq_true (List.mem_singleton.mp hmem).symm))
    · intro hsent
      rcases Bool.or_eq_true_iff.mp hsent with hsent | hsent
      · exact h.ok.spawned hsent
      · obtain rfl := of_decide_eq_true hsent
        exact h.spawned hm
    · intro hmem
      rcases List.mem_append.mp hmem with hmem | hmem
      · exact Bool.or_eq_true_iff.mpr (.inl (h.ok.accepted hmem))
      · exact Bool.or_eq_true_iff.mpr (.inr (decide_eq_true (List.mem_singleton.mp hmem).symm))
    · intro hsent
      rcases Bool.or_eq_true_iff.mp hsent with hsent | hsent
      · exact h.ok.served hsent
      · obtain rfl := of_decide_eq_true hsent
        exact ⟨h.done hm.1, h.armed hm.2⟩
    · exact fun hp => Bool.or_eq_true_iff.mpr (.inl (h.ok.written hp))
  refine ⟨⟨rfl, rfl, rfl, ?_, ?_, fun _ => hok⟩, { h with ok := hok }⟩
  · exact fun hs => Bool.or_eq_true_iff.mpr (.inl hs)
  · exact fun hs => Bool.or_eq_true_iff.mpr (.inl hs)

theorem keeps_worker_sendControl (patience : Nat) {m : ClipMessage} (hm : v.MaySend m) :
    (clipSem .worker).Keeps (WorkerAt v) (sendControl patience .worker m) := by
  refine (worker_steady v).sendControl patience fun w h => wp_worker h fun w₁ r h₁ _ => ?_
  cases r with
  | sent => exact h₁.send hm
  | _ => exact ⟨WorkerActs.refl w₁, h₁⟩

/-- What the worker knows once it has received a message. -/
def WorkerView.learn (v : WorkerView) : Option ClipMessage → WorkerView
  | some .done => { v with done := true }
  | _ => v

theorem WorkerAt.receive {m : ClipMessage} (h : WorkerAt v w) :
    WorkerActs w (w.effect (.receive .worker) (.message m)) ∧
      WorkerAt (v.learn (some m)) (w.effect (.receive .worker) (.message m)) := by
  have hdone : w.doneReceived = true → (w.doneReceived || decide (m = .done)) = true :=
    fun hd => Bool.or_eq_true_iff.mpr (.inl hd)
  have hok : Clip.Ok (w.effect (.receive .worker) (.message m)) :=
    { h.ok with
      served := fun hs => ⟨hdone (h.ok.served hs).1, (h.ok.served hs).2⟩
      waits := fun hs => ⟨hdone (h.ok.waits hs).1, (h.ok.waits hs).2⟩ }
  refine ⟨⟨rfl, rfl, rfl, id, id, fun _ => hok⟩, ?_⟩
  cases m with
  | done => exact { h with ok := hok, done := fun _ => Bool.or_eq_true_iff.mpr (.inr rfl) }
  | _ => exact { h with ok := hok, done := fun hv => hdone (h.done hv) }

theorem receiveControl_worker_spec (patience : Nat) (h : WorkerAt v w) :
    (clipSem .worker).wp (receiveControl patience .worker)
      (fun m w' => WorkerAt (v.learn m) w') w := by
  refine Sem.wp_iterate (fun _ => WorkerAt v) trivial (fun _ w h => ?_) patience h
  refine wp_worker h fun w₁ r h₁ _ => ?_
  cases r with
  | message m => exact h₁.receive
  | interrupted =>
    refine ⟨WorkerActs.refl w₁, ?_⟩
    refine Sem.wp_then ((worker_steady v).quiet _ (fun _ _ => rfl) w₁ h₁) fun stop w₂ h₂ => ?_
    show (clipSem .worker).wp (.ret _) _ w₂
    split_ifs
    · exact h₂
    · exact h₂
  | _ => exact ⟨WorkerActs.refl w₁, h₁⟩

/-- A message the worker has received tells it no less than it knew. -/
theorem WorkerAt.of_learn {m : Option ClipMessage} (h : WorkerAt (v.learn m) w) : WorkerAt v w := by
  rcases m with _ | m
  · exact h
  · cases m with
    | done => exact { h with done := fun _ => h.done rfl }
    | _ => exact h

/-! ### `worker_loop` -/

/-- From here on the worker keeps its promise. -/
def WorkerSafe (p : ClipM PvStatus) (w : Clip) : Prop :=
  (clipSem .worker).wp p (fun _ _ => True) w

theorem workerCleanup_safe (fds : WorkerFds) (status : PvStatus) (h : WorkerAt v w) :
    WorkerSafe (workerCleanup fds status) w := by
  have hkeeps : (clipSem .worker).Keeps (WorkerAt v) (workerCleanup fds status) := by
    refine (keeps_clipIf ((worker_steady v).quiet _ fun _ _ => rfl) _).bind fun _ => ?_
    refine (keeps_worker_closeIfOpen _ fun _ _ => rfl).bind fun _ => ?_
    refine (keeps_worker_closeIfOpen _ fun _ _ => rfl).bind fun _ => ?_
    refine (keeps_worker_closeIfOpen _ fun _ _ => rfl).bind fun _ => ?_
    refine (keeps_worker_closeIfOpen _ fun _ _ => rfl).bind fun _ => ?_
    exact (keeps_worker_closeIfOpen _ fun _ _ => rfl).bind fun _ => Sem.keeps_ret _
  exact Sem.wp_mono (hkeeps w h) fun _ _ _ => trivial

theorem workerFails_safe (patience : Nat) (fds : WorkerFds) (status : PvStatus)
    (h : WorkerAt v w) : WorkerSafe (workerFails patience fds status) w :=
  Sem.wp_then (keeps_worker_sendControl patience (m := .failed) trivial w h)
    fun _ _ h₁ => workerCleanup_safe fds status h₁

/-- A worker that stops waiting with success has received `DONE`. -/
theorem waitForDoneRound_spec (patience : Nat) (pidfd : Bool) (w : Clip) (h : WorkerAt v w) :
    (clipSem .worker).wp (waitForDoneRound patience pidfd)
      (LoopPost (fun _ => WorkerAt v) fun done w' =>
        WorkerAt (if done = true then { v with done := true } else v) w') w := by
  have hpoll : (clipSem .worker).Keeps (WorkerAt v) (clip (.pollDone pidfd)) :=
    (worker_steady v).quiet _ fun _ _ => rfl
  refine Sem.wp_then ((worker_steady v).pollPair patience hpoll w h) fun answer w₁ h₁ => ?_
  refine Sem.wp_then ((worker_steady v).quiet _ (fun _ _ => rfl) w₁ h₁) fun stop w₂ h₂ => ?_
  split_ifs
  · exact h₂
  · refine Sem.wp_then ((worker_steady v).ownerGone pidfd w₂ h₂) fun gone w₃ h₃ => ?_
    split_ifs
    · exact h₃
    · cases answer with
      | events control owner hangup =>
        dsimp only
        split_ifs
        · exact Sem.wp_then ((worker_steady v).quiet _ (fun _ _ => rfl) w₃ h₃) fun _ _ h₄ => h₄
        · refine Sem.wp_then (receiveControl_worker_spec patience h₃) fun message w₄ h₄ => ?_
          show WorkerAt (if decide (message = some .done) = true then _ else _) w₄
          split_ifs with hm
          · rw [of_decide_eq_true hm] at h₄
            exact h₄
          · exact h₄.of_learn
        · exact h₃
        · exact h₃
      | _ => exact h₃

/-- The TTL wait of a worker that has received `DONE` and armed the timer. -/
theorem keeps_worker_waitTtl (patience : Nat) (pidfd : Bool) (hdone : v.done = true)
    (harmed : v.armed = true) :
    (clipSem .worker).Keeps (WorkerAt v) (waitForOwnerOrTimeout patience pidfd) := by
  have hpoll : (clipSem .worker).Keeps (WorkerAt v) (clip (.pollTtl pidfd)) := by
    refine fun w h => wp_worker h fun w₁ r h₁ _ => ?_
    have hok : Clip.Ok (w₁.effect (.pollTtl pidfd) r) :=
      { h₁.ok with waits := fun _ => ⟨h₁.done hdone, h₁.armed harmed⟩ }
    exact ⟨⟨rfl, rfl, rfl, id, id, fun _ => hok⟩, { h₁ with ok := hok }⟩
  refine Sem.keeps_iterate trivial (fun _ => ?_) patience ()
  refine ((worker_steady v).pollPair patience hpoll).bind fun answer => ?_
  refine ((worker_steady v).quiet _ fun _ _ => rfl).bind fun stop => .ite (Sem.keeps_ret _) ?_
  refine ((worker_steady v).ownerGone pidfd).bind fun gone => .ite (Sem.keeps_ret _) ?_
  cases answer with
  | events timer owner hangup =>
    refine .ite (((worker_steady v).quiet _ fun _ _ => rfl).bind fun _ => Sem.keeps_ret _) ?_
    refine .ite (((worker_steady v).quiet _ fun _ _ => rfl).bind fun _ => Sem.keeps_ret _) ?_
    exact Sem.keeps_ret _
  | _ => exact Sem.keeps_ret _

theorem workerServe_safe (patience : Nat) (fds : WorkerFds) (hdone : v.done = true)
    (harmed : v.armed = true) (h : WorkerAt v w) : WorkerSafe (workerServe patience fds) w := by
  refine Sem.wp_then (keeps_worker_closeIfOpen _ (fun _ _ => rfl) w h) fun _ w₁ h₁ => ?_
  refine Sem.wp_then (keeps_worker_waitTtl patience _ hdone harmed w₁ h₁) fun result w₂ h₂ => ?_
  cases result with
  | failed => exact workerCleanup_safe _ _ h₂
  | ownerExited => exact workerCleanup_safe _ _ h₂
  | expired =>
    exact Sem.wp_then ((worker_steady v).quiet _ (fun _ _ => rfl) w₂ h₂)
      fun _ _ h₃ => workerCleanup_safe _ _ h₃

theorem workerAccept_safe (patience ttlSeconds : Nat) (fds : WorkerFds) (hdone : v.done = true)
    (h : WorkerAt v w) : WorkerSafe (workerAccept patience ttlSeconds fds) w := by
  refine wp_worker h fun w₁ armed h₁ _ => ?_
  cases armed with
  | false => exact ⟨WorkerActs.refl w₁, workerFails_safe patience fds _ h₁⟩
  | true =>
    have hok : Clip.Ok (w₁.effect (.setTimer ttlSeconds) true) :=
      { h₁.ok with
        served := fun hs => ⟨(h₁.ok.served hs).1, rfl⟩
        waits := fun hs => ⟨(h₁.ok.waits hs).1, rfl⟩ }
    have h₂ : WorkerAt { v with armed := true } (w₁.effect (.setTimer ttlSeconds) true) :=
      { h₁ with ok := hok, armed := fun _ => rfl }
    refine ⟨⟨rfl, rfl, rfl, id, id, fun _ => hok⟩, ?_⟩
    refine Sem.wp_then ((worker_steady _).quiet _ (fun _ _ => rfl) _ h₂) fun stop w₃ h₃ => ?_
    refine Sem.wp_then (keeps_clipIf ((worker_steady _).quiet _ fun _ _ => rfl) _ w₃ h₃) ?_
    intro exited w₄ h₄
    split_ifs
    · exact workerFails_safe patience fds _ h₄
    · have hsend : WorkerView.MaySend { v with armed := true } .accepted := ⟨hdone, rfl⟩
      refine Sem.wp_then (keeps_worker_sendControl patience hsend w₄ h₄) fun sent w₅ h₅ => ?_
      split_ifs
      · exact workerCleanup_safe fds _ h₅
      · exact workerServe_safe patience fds hsend.1 hsend.2 h₅

theorem workerOwn_safe (patience ttlSeconds : Nat) (fds : WorkerFds) (hspawned : v.spawned = true)
    (h : WorkerAt v w) : WorkerSafe (workerOwn patience ttlSeconds fds) w := by
  refine Sem.wp_then (keeps_worker_closeIfOpen _ (fun _ _ => rfl) w h) fun _ w₁ h₁ => ?_
  refine Sem.wp_then ((worker_steady v).quiet _ (fun _ _ => rfl) w₁ h₁) fun pidfd w₂ h₂ => ?_
  refine Sem.wp_then ((worker_steady v).quiet _ (fun _ _ => rfl) w₂ h₂) fun timer w₃ h₃ => ?_
  split_ifs
  · exact workerFails_safe patience _ _ h₃
  · have hsend : v.MaySend .ready := hspawned
    refine Sem.wp_then (keeps_worker_sendControl patience hsend w₃ h₃) fun sent w₄ h₄ => ?_
    split_ifs
    · exact workerCleanup_safe _ _ h₄
    · refine Sem.wp_then
        (Sem.wp_iterate _ trivial (fun _ => waitForDoneRound_spec patience pidfd) patience h₄) ?_
      intro done w₅ h₅
      cases done with
      | false => exact workerFails_safe patience _ _ h₅
      | true => exact workerAccept_safe patience ttlSeconds _ rfl h₅

theorem workerStart_safe (patience ttlSeconds : Nat) (fds : WorkerFds) (h : WorkerAt v w) :
    WorkerSafe (workerStart patience ttlSeconds fds) w := by
  refine Sem.wp_then (receiveControl_worker_spec patience h) fun message w₁ h₁ => ?_
  split_ifs
  · exact workerCleanup_safe fds _ h₁
  · refine Sem.wp_then ((worker_steady _).quiet _ (fun _ _ => rfl) w₁ h₁) fun stop w₂ h₂ => ?_
    split_ifs
    · exact workerCleanup_safe fds _ h₂
    · refine wp_worker h₂ fun w₃ spawned h₃ _ => ?_
      cases spawned with
      | false => exact ⟨WorkerActs.refl w₃, workerFails_safe patience fds _ h₃⟩
      | true =>
        have hok : Clip.Ok { w₃ with ownerSpawned := true } :=
          { h₃.ok with spawned := fun _ => rfl }
        have h₄ : WorkerAt { v.learn message with spawned := true }
            { w₃ with ownerSpawned := true } :=
          { h₃ with ok := hok, spawned := fun _ => rfl }
        exact ⟨⟨rfl, rfl, rfl, id, id, fun _ => hok⟩, workerOwn_safe patience ttlSeconds _ rfl h₄⟩

theorem keeps_worker_workerSetup : (clipSem .worker).Keeps (WorkerAt v) workerSetup := by
  have hcall : ∀ call, (clipSem .worker).Keeps (WorkerAt v) (clip (.prepareWorker call)) :=
    fun _ => (worker_steady v).quiet _ fun _ _ => rfl
  refine (hcall _).bind fun normal => .ite (Sem.keeps_ret _) ?_
  refine (hcall _).bind fun data => ?_
  refine (keeps_clipIf (hcall _) _).bind fun control => ?_
  refine (keeps_clipIf (hcall _) _).bind fun setup => ?_
  refine (keeps_clipIf (hcall _) _).bind fun handlers => .ite (Sem.keeps_ret _) ?_
  exact (hcall _).bind fun backend => Sem.keeps_ret _

/-- The worker keeps its promise throughout `worker_loop`. -/
theorem workerLoop_safe (patience ttlSeconds : Nat) (h : WorkerAt v w) :
    WorkerSafe (workerLoop patience ttlSeconds) w := by
  refine Sem.wp_then (keeps_worker_workerSetup w h) fun status w₁ h₁ => ?_
  refine Sem.wp_then ((worker_steady v).quiet _ (fun _ _ => rfl) w₁ h₁) fun reported w₂ h₂ => ?_
  refine Sem.wp_then ((worker_steady v).quiet _ (fun _ _ => rfl) w₂ h₂) fun _ w₃ h₃ => ?_
  dsimp only
  split_ifs
  all_goals first
    | exact workerCleanup_safe _ _ h₃
    | exact workerStart_safe patience ttlSeconds _ h₃

end Worker

/-! ## Client and worker -/

/-- What the programs of the two parties return. -/
def ClipResult : Party → Type
  | .client => List PvStatus × ClipJob
  | .worker => PvStatus

/-- A client that makes `calls` with the job that `pv_clipboard_prepare` returned, and the
worker it has started. -/
def clipPrograms (patience ttlSeconds : Nat) (calls : List ClipCall) (supervisorFd : Bool) :
    (who : Party) → ClipM (ClipResult who)
  | .client => clipSession patience calls ⟨true, true, supervisorFd, true⟩
  | .worker => workerLoop patience ttlSeconds

/-- The points that client and worker reach, in any interleaving and whatever their calls
answer. -/
def ClipReaches (patience ttlSeconds : Nat) (calls : List ClipCall) (supervisorFd : Bool) :
    ((who : Party) → ClipM (ClipResult who)) → Clip → Prop :=
  Par clipSem (fun _ _ => False) (clipPrograms patience ttlSeconds calls supervisorFd) Clip.fresh

theorem Clip.ok_fresh : Clip.fresh.Ok :=
  ⟨nofun, nofun, nofun, nofun, nofun, fun h => absurd rfl h⟩

/-- What each party leaves when it returns. -/
def clipPost (calls : List ClipCall) : (who : Party) → ClipResult who → Clip → Prop
  | .client => SessionPost calls
  | .worker => fun _ _ => True

theorem clipPost_rely (calls : List ClipCall) (who : Party) (r : ClipResult who) (w w' : Clip)
    (h : clipPost calls who r w) (hrely : (clipSem who).rely w w') : clipPost calls who r w' := by
  cases who with
  | client =>
    obtain ⟨v, hat, hclosed, haccepted⟩ := h
    exact ⟨v, hat.rely hrely, hclosed, haccepted⟩
  | worker => trivial

theorem clipPrograms_wp (patience ttlSeconds : Nat) (calls : List ClipCall) (supervisorFd : Bool)
    (who : Party) : (clipSem who).wp (clipPrograms patience ttlSeconds calls supervisorFd who)
      (clipPost calls who) Clip.fresh := by
  cases who with
  | client =>
    have hat : ClientAt ⟨[], true, true, false, false⟩ Clip.fresh :=
      ⟨Clip.ok_fresh, rfl, rfl, rfl, nofun, nofun⟩
    exact clipSession_spec patience calls hat ⟨rfl, rfl⟩ rfl rfl rfl rfl
  | worker =>
    have hat : WorkerAt ⟨false, false, false⟩ Clip.fresh := ⟨Clip.ok_fresh, nofun, nofun, nofun⟩
    exact workerLoop_safe patience ttlSeconds hat

/-- **The hand-off is safe.** At every point of every interleaving of a client and the worker:
a byte in the pipe means that the owner was spawned and `READY` sent; the worker waits for the
TTL only with `DONE` received and the timer armed; and when the client has returned, a
`PV_OK` means that exactly that secret was written, the write end closed, `DONE` received, the
timer armed and `ACCEPTED` sent, while after any attempt to send (or a cancellation) both
descriptors of the client are closed. -/
theorem clipboard_handoff {patience ttlSeconds : Nat} {calls : List ClipCall}
    {supervisorFd : Bool} {ps : (who : Party) → ClipM (ClipResult who)} {w : Clip}
    (h : ClipReaches patience ttlSeconds calls supervisorFd ps w) :
    (w.pipe ≠ [] → w.ownerSpawned = true ∧ w.readySent = true) ∧
    (w.ttlWait = true ∨ (∃ pidfd k, ps .worker = .call (.pollTtl pidfd) k) →
      w.doneReceived = true ∧ w.timerArmed = true) ∧
    ∀ statuses job, ps .client = .ret (statuses, job) →
      (∀ secret ∈ acceptedSecrets calls statuses, w.pipe = secret ∧ w.writeOpen = false ∧
        w.doneReceived = true ∧ w.timerArmed = true ∧ w.acceptedSent = true) ∧
      ((∃ call ∈ calls, call.Closes) → w.writeOpen = false ∧ w.controlOpen = false) := by
  have hwp := Par.wp h clipSem_compatible (clipPost_rely calls)
    (clipPrograms_wp patience ttlSeconds calls supervisorFd)
  have hok : w.Ok := Par.invariant h clipSem_compatible (clipPost_rely calls)
    (clipPrograms_wp patience ttlSeconds calls supervisorFd)
    (fun i a b hg ha => by cases i <;> exact hg.ok ha) (fun _ _ hf => hf.elim) Clip.ok_fresh
  refine ⟨fun hp => ⟨hok.spawned (hok.written hp), hok.written hp⟩, ?_, ?_⟩
  · rintro (hwait | ⟨pidfd, k, hnext⟩)
    · exact hok.waits hwait
    · -- the poll itself would mark the wait, and the promise covers it
      have hworker := hwp .worker
      rw [hnext] at hworker
      have hstep : Clip.Step w (.pollTtl pidfd) .idle (w.effect (.pollTtl pidfd) .idle) :=
        ⟨trivial, rfl⟩
      obtain ⟨hacts, -⟩ := hworker w (ClientActs.refl w) .idle _ hstep
      exact (hacts.ok hok).waits rfl
  · intro statuses job hret
    have hclient := hwp .client
    rw [hret] at hclient
    obtain ⟨v, hat, hclosed, haccepted⟩ := hclient
    refine ⟨fun secret hmem => ?_, fun hex => ?_⟩
    · obtain ⟨hw, hpipe, hacc⟩ := haccepted secret hmem
      have hsent := hat.accepted hacc
      obtain ⟨hdone, harmed⟩ := hok.served hsent
      exact ⟨hat.pipe_eq.trans hpipe, hat.writeOpen_eq.trans hw, hdone, harmed, hsent⟩
    · obtain ⟨hw, hc⟩ := hclosed hex
      exact ⟨hat.writeOpen_eq.trans hw, hat.controlOpen_eq.trans hc⟩

/-! ### A run in which nothing fails -/

/-- What `recv` answers when no call fails. -/
def nextMessage : List ClipMessage → RecvAnswer
  | [] => .failed
  | m :: _ => .message m

/-- The answers of a world in which no call fails and the owner does not exit. -/
def Clip.answer (w : Clip) : (op : ClipOp) → ClipRes op
  | .pendingSignal => some false
  | .writeControl _ _ => .sent
  | .receive .client => nextMessage w.toClient
  | .receive .worker => nextMessage w.toWorker
  | .pollControl | .pollData => .ready
  | .writeData chunk => .wrote chunk.length
  | .pollDone _ | .pollTtl _ => .events true false false
  | .closeFd _ | .signalSupervisor | .reapOwner | .terminateOwner => ()
  | .drainSignal | .stopRequested | .ownerHasExited => false
  | .blockSignal | .restoreSignals | .prepareWorker _ | .reportSetup _ | .spawnOwner _
  | .openPidfd | .createTimer | .setTimer _ | .readTimer => true

theorem Clip.allowed_answer (w : Clip) (op : ClipOp) : w.Allowed op (w.answer op) := by
  have hnext : ∀ (messages : List ClipMessage) (m : ClipMessage),
      nextMessage messages = .message m → messages.head? = some m := by
    rintro (_ | ⟨m', messages⟩) m h
    · cases h
    · cases h
      rfl
  cases op with
  | writeData chunk => exact Nat.le_refl _
  | receive who =>
    cases who with
    | client =>
      show w.Allowed (.receive .client) (nextMessage w.toClient)
      rcases h : nextMessage w.toClient with m | _ | _ | _
      · exact hnext _ _ h
      all_goals trivial
    | worker =>
      show w.Allowed (.receive .worker) (nextMessage w.toWorker)
      rcases h : nextMessage w.toWorker with m | _ | _ | _
      · exact hnext _ _ h
      all_goals trivial
  | _ => trivial

/-- The next call of one party, if it makes one. -/
def clipTurn (s : ((who : Party) → ClipM (ClipResult who)) × Clip) (who : Party) :
    ((who : Party) → ClipM (ClipResult who)) × Clip :=
  match s.1 who with
  | .call op k => (Function.update s.1 who (k (s.2.answer op)), s.2.effect op (s.2.answer op))
  | _ => s

/-- Client and worker taking turns. -/
def clipTurns (patience ttlSeconds : Nat) (calls : List ClipCall) (supervisorFd : Bool)
    (turns : List Party) : ((who : Party) → ClipM (ClipResult who)) × Clip :=
  turns.foldl clipTurn (clipPrograms patience ttlSeconds calls supervisorFd, Clip.fresh)

theorem clipTurns_reached (patience ttlSeconds : Nat) (calls : List ClipCall)
    (supervisorFd : Bool) (turns : List Party) :
    ClipReaches patience ttlSeconds calls supervisorFd
      (clipTurns patience ttlSeconds calls supervisorFd turns).1
      (clipTurns patience ttlSeconds calls supervisorFd turns).2 := by
  induction turns using List.reverseRecOn with
  | nil => exact .start
  | append_singleton turns who ih =>
    rw [clipTurns, List.foldl_append, List.foldl_cons, List.foldl_nil, ← clipTurns]
    generalize clipTurns patience ttlSeconds calls supervisorFd turns = s at ih
    rw [clipTurn]
    split
    · rename_i op k hnext
      have hstep : Clip.Step s.2 op (s.2.answer op) (s.2.effect op (s.2.answer op)) :=
        ⟨s.2.allowed_answer op, rfl⟩
      cases who <;> exact .own ih hnext hstep
    · exact ih

/-- The turns of a hand-off that succeeds. -/
def handoffTurns : List Party :=
  List.replicate 8 .worker ++ List.replicate 4 .client ++ List.replicate 10 .worker ++
    List.replicate 11 .client ++ List.replicate 11 .worker ++ List.replicate 4 .client

/-- Two bytes are handed over, and the worker is about to wait for the TTL. -/
theorem clipboard_handoff_delivers : ∃ ps w, ClipReaches 3 15 [.send [0, 104]] true ps w ∧
    ps .client = .ret ([.ok], ⟨false, false, false, false⟩) ∧ w.pipe = [0, 104] ∧
    w.readySent = true ∧ w.doneReceived = true ∧ w.timerArmed = true ∧ w.acceptedSent = true ∧
    w.writeOpen = false ∧ w.controlOpen = false := by
  have h := clipTurns_reached 3 15 [.send [0, 104]] true handoffTurns
  have hret : (clipTurns 3 15 [.send [0, 104]] true handoffTurns).1 .client =
      .ret ([.ok], ⟨false, false, false, false⟩) := rfl
  have hsizes : Sendable [0, 104] := ⟨nofun, Nat.le_of_ble_eq_true rfl⟩
  obtain ⟨hbytes, -, hend⟩ := clipboard_handoff h
  obtain ⟨hok, hclosed⟩ := hend _ _ hret
  obtain ⟨hpipe, -, hdone, harmed, haccepted⟩ := hok [0, 104] (List.mem_singleton.mpr rfl)
  obtain ⟨hw, hc⟩ := hclosed ⟨_, List.mem_singleton.mpr rfl, hsizes⟩
  have hready := (hbytes (by rw [hpipe]; exact List.cons_ne_nil _ _)).2
  exact ⟨_, _, h, hret, hpipe, hready, hdone, harmed, haccepted, hw, hc⟩

end PVault
