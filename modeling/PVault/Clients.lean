import PVault.OpenMemory
import PVault.Turns
import PVault.Lib.Sessions

/-!
# Clients of one vault (`src/store.c`)

Any number of clients share a vault path. Each of them opens the vault, changes what it has in
memory, saves, creates and restores, call after call; every operation of a call is a step of its
own, any operation may fail, and a client may be stopped at any point, which gives its lock back
(`store`).

* `StoreCall.Allows` — the plans a call may follow once it has the lock.
* `Alongside` — what a client may count on while others act.
* `clients` — every call keeps to what the others count on, so all of them are verified next to
  each other.
-/

namespace PVault

open Binary Conc

/-! ## Calls -/

/-- What a client has of a vault that it opened. -/
abbrev Handle (Hash : Type) : Type := Vault Hash × FileHeader

/-- The calls of the clients. -/
inductive StoreCall (Hash : Type) : Type
  /-- `pv_store_open_password` and `pv_store_open_recovery` -/
  | opens (host : Host) (env : UnlockEnv) (credential : Bytes) (recovery : Bool)
  /-- `pv_store_save` -/
  | saves (host : Host) (env : SaveEnv) (vault : Vault Hash) (header : FileHeader) (retention : Nat)
  /-- `pv_store_create` -/
  | creates (host : Host) (env : CreateEnv) (password : Bytes) (recoveryKey : Block pvRecoveryKeyBytes)
  /-- `pv_store_restore` -/
  | restores (host : Host) (env : RestoreEnv) (backupPath : Bytes) (expected : Hash)

/-- What a call returns. -/
@[reducible] def StoreCall.Out {Hash : Type} : StoreCall Hash → Type
  | .opens .. => Except PvStatus (Handle Hash)
  | .saves .. => PvStatus × Handle Hash
  | .creates .. => PvStatus × Option (Vault Hash)
  | .restores .. => PvStatus

section Service

variable {Hash : Type} [DecidableEq Hash] (so : Sodium Hash) (path : Bytes)

/-- The program of a call. -/
def StoreCall.program : (call : StoreCall Hash) → SysM call.Out
  | .opens host env credential recovery => onFiles (openCommon so host env path credential recovery)
  | .saves host env vault header retention => pvStoreSave so host env vault header retention
  | .creates host env password recoveryKey => pvStoreCreate so host env path password recoveryKey
  | .restores host env backupPath expected => pvStoreRestore so host env path backupPath expected

/-- Only what was opened can be saved. -/
def StoreCall.Offered (own : Option (Handle Hash)) : StoreCall Hash → Prop
  | .saves _ _ vault header _ => own = some (vault, header)
  | _ => True

/-- What a client has after a call. `pv_store_create` returns no header, so what it returns
cannot be saved. -/
def StoreCall.kept (own : Option (Handle Hash)) : (call : StoreCall Hash) → call.Out → Option (Handle Hash)
  | .opens .., .ok handle => some handle
  | .opens .., .error _ => own
  | .saves .., r => some r.2
  | .creates .., _ => own
  | .restores .., _ => own

/-- What a client does with its handle: it closes it, or changes the vault or the keyslots in
memory. -/
inductive Thinks : Option (Handle Hash) → Option (Handle Hash) → Prop
  | closes (own : Option (Handle Hash)) : Thinks own none
  | changes {vault vault' : Vault Hash} {header header' : FileHeader} (hpath : vault'.path = vault.path)
      (hhash : vault'.sourceHash = vault.sourceHash) (husable : header.Usable → header'.Usable) :
      Thinks (some (vault, header)) (some (vault', header'))

/-- **The clients of a vault.** -/
def store : Service SysRes World Nat where
  Call := StoreCall Hash
  Out := StoreCall.Out
  Own := Option (Handle Hash)
  program := StoreCall.program so path
  offers := StoreCall.Offered
  keeps := StoreCall.kept
  thinks := Thinks
  step := World.Step true
  leave c w := w.release fun l => l.client == c

end Service

/-! ## What a call does -/

section Effects

variable {Hash : Type} {so : Sodium Hash} {path : Bytes}

/-- What a call does without the lock. -/
def StoreCall.Outside (path : Bytes) : StoreCall Hash → Fs → Fs → Prop
  | .creates .., a, b =>
    path.head? = some 0x2f ∧ Fs.Grows (Fs.components (parentPath path)) a b
  | _, a, b => b = a

/-- **The plans a call may follow** that got the lock when the files were `start`. -/
def StoreCall.Allows (so : Sodium Hash) (path : Bytes) (location : Location) (start : Fs) (plan : Plan) :
    StoreCall Hash → Prop
  | .opens .. => False
  | .saves _ env vault header _ =>
    header.Usable ∧ (∃ data, start.active location = .holds data ∧
        so.generichash data = vault.sourceHash) ∧
      (sealVault so env (vault.stamped env.now) header).1 = .ok ∧
      plan = savePlan so env location vault header false (start.active location)
  | .creates _ env password recoveryKey =>
    ∃ vault header, Drawn so env path password recoveryKey vault header ∧
      (sealVault so env.save (vault.stamped env.save.now) header).1 = .ok ∧
      plan = savePlan so env.save location vault header true (start.active location)
  | .restores _ env _ expected =>
    ∃ backup : DiskFile Hash, backup.Reads so backup.bytes ∧ backup.hash = expected ∧
      plan = restorePlan so env location backup (start.active location)

/-- What a call does under the lock. -/
def StoreCall.Work (so : Sodium Hash) (path : Bytes) (call : StoreCall Hash) (location : Location)
    (start a b : Fs) : Prop :=
  b = a ∨ ∃ plan, call.Allows so path location start plan ∧ plan.Step a b

/-- What the caller of a snapshot's encryption may read back. -/
theorem sealed_reads {env : SaveEnv} {vault : Vault Hash} {header : FileHeader} (husable : header.Usable)
    (hseal : (sealVault so env (vault.stamped env.now) header).1 = .ok) :
    ∃ disk : DiskFile Hash,
      disk.Reads so (sealedBytes (sealVault so env (vault.stamped env.now) header)) := by
  rcases hsealed : sealVault so env (vault.stamped env.now) header with ⟨status, header', ciphertext⟩
  rw [hsealed] at hseal
  obtain rfl : status = .ok := hseal
  obtain ⟨encoded, -, henc⟩ := sealVault_ok hsealed
  obtain ⟨hv, hlen, -⟩ := pvCryptoEncryptBody_v1 husable henc
  exact ⟨_, sealedDisk_reads (Fs.newInode.stat 0) hv hlen⟩

/-- A call works where it has the lock, and what it puts in the place of a snapshot is one. -/
theorem StoreCall.Allows.plan {call : StoreCall Hash} {location : Location} {start : Fs} {plan : Plan}
    (h : call.Allows so path location start plan) :
    plan.location = location ∧ plan.old = start.active location ∧
      ∀ data, plan.base data → ∃ disk : DiskFile Hash, disk.Reads so plan.content := by
  cases call with
  | opens => exact h.elim
  | saves =>
    obtain ⟨husable, -, hseal, rfl⟩ := h
    exact ⟨rfl, rfl, fun _ _ => sealed_reads husable hseal⟩
  | creates =>
    obtain ⟨vault, header, -, -, rfl⟩ := h
    exact ⟨rfl, rfl, fun _ hbase => nomatch hbase.1⟩
  | restores =>
    obtain ⟨backup, hreads, -, rfl⟩ := h
    exact ⟨rfl, rfl, fun _ _ => ⟨backup, hreads⟩⟩

end Effects

/-! ## The others -/

section Sharing

variable {Hash : Type} {so : Sodium Hash} {path : Bytes} {call : StoreCall Hash} {c j : Nat} {a b : World}

/-- **What holds at every point**: one client at a time has a lock, and it lies where the path
leads. -/
structure Shared (path : Bytes) (w : World) : Prop where
  ordered : w.fs.Ordered path
  locks : w.locks = [] ∨ ∃ l, w.locks = [l] ∧ w.fs.At path l.location

/-- **What a client may count on.** -/
structure Alongside (so : Sodium Hash) (path : Bytes) (c : Nat) (a b : World) : Prop where
  locks : b.locksOf c = a.locksOf c
  held : ¬a.Idle c → b.fs = a.fs
  history : ∃ news, b.history = news ++ a.history ∧ ∀ s ∈ news, s.client ≠ c
  drift : Fs.Drift so path a.fs b.fs
  shared : Shared path a → Shared path b

theorem neighbours_alongside (so : Sodium Hash) (path : Bytes) (c : Nat) :
    Neighbours c (Alongside so path c) where
  refl w := ⟨rfl, fun _ => rfl, ⟨[], rfl, nofun⟩, .refl, id⟩
  trans a b d h h' := by
    refine ⟨h'.locks.trans h.locks, fun hheld => ?_, ?_, h.drift.trans h'.drift,
      fun hshared => h'.shared (h.shared hshared)⟩
    · have hheld' : ¬b.Idle c := fun hidle => hheld (h.locks.symm.trans hidle)
      exact (h'.held hheld').trans (h.held hheld)
    · obtain ⟨news, hnews, hmine⟩ := h.history
      obtain ⟨more, hmore, hmine'⟩ := h'.history
      refine ⟨more ++ news, by rw [hmore, hnews, List.append_assoc], fun s hs => ?_⟩
      rcases List.mem_append.mp hs with hs | hs
      · exact hmine' s hs
      · exact hmine s hs
  locks _ _ h := h.locks
  held _ _ h := h.held
  history _ _ h := h.history

/-- The lock a client works under is the only one. -/
theorem Shared.only {l : Lock} (h : Shared path a) (hl : l ∈ a.locks) :
    a.locks = [l] ∧ a.fs.At path l.location := by
  rcases h.locks with hnone | ⟨l', hlocks, hat⟩
  · rw [hnone] at hl
    cases hl
  · rw [hlocks, List.mem_singleton] at hl
    subst hl
    exact ⟨hlocks, hat⟩

/-- Where no lock of a client is, the client is idle. -/
theorem World.idle_of_locks (h : ∀ l ∈ a.locks, l.client ≠ c) : a.Idle c :=
  List.filter_eq_nil_iff.mpr fun l hl => by simpa using h l hl

theorem Shared.held_at (h : Shared path a) (hheld : ¬a.Idle c) : ∃ location, a.fs.At path location := by
  rcases h.locks with hnone | ⟨l, -, hat⟩
  · refine absurd (World.idle_of_locks fun l hl => ?_) hheld
    rw [hnone] at hl
    cases hl
  · exact ⟨_, hat⟩

/-- What a call may do at one step. -/
abbrev StoreCall.Acts (so : Sodium Hash) (path : Bytes) (c : Nat) (call : StoreCall Hash) :
    World → World → Prop := PVault.Acts c (call.Outside path) (call.Work so path)

/-- The same, with locks only where the path leads. -/
abbrev StoreCall.Guar (so : Sodium Hash) (path : Bytes) (c : Nat) (call : StoreCall Hash)
    (a b : World) : Prop := call.Acts so path c a b ∧ Leads path a b

/-- **A step of a call** leaves the files as they are, or is one that clients take. -/
theorem StoreCall.Guar.moves (h : call.Guar so path c a b) (ha : Shared path a) :
    b.fs = a.fs ∨ Fs.Moves so path a.fs b.fs := by
  obtain ⟨hacts, -⟩ := h
  cases hacts with
  | idle | acquire | release => exact .inl rfl
  | outside h =>
    cases call with
    | creates => exact .inr (.grows h.1 h.2)
    | opens | saves | restores => exact .inl h
  | work hl hc h =>
    obtain ⟨-, hat⟩ := ha.only hl
    rcases h with heq | ⟨plan, hplan, hstep⟩
    · exact .inl heq
    · obtain ⟨hloc, -, hcontent⟩ := hplan.plan
      exact .inr (.works (hloc ▸ hat) hcontent hstep)

theorem StoreCall.Guar.drift (h : call.Guar so path c a b) (ha : Shared path a) :
    Fs.Drift so path a.fs b.fs := by
  rcases h.moves ha with heq | hmoves
  · rw [heq]
  · exact .single hmoves

/-- Locks are given back one by one. -/
theorem Shared.release (ha : Shared path a) (gone : Lock → Bool) : Shared path (a.release gone) := by
  refine ⟨ha.ordered, ?_⟩
  rcases ha.locks with hnone | ⟨l, hlocks, hat⟩
  · refine .inl ?_
    rw [World.release, hnone]
    rfl
  · rw [World.release, hlocks]
    by_cases hl : gone l
    · exact .inl (by simp [hl])
    · exact .inr ⟨l, by simp [hl], hat⟩

/-- A client that gives back its locks does not disturb the others. -/
theorem Alongside.release {gone : Lock → Bool}
    (hgone : ∀ l, gone l = true → l.client = c) (hne : j ≠ c) :
    Alongside so path j a (a.release gone) where
  locks := by
    rw [World.locksOf, World.locksOf, World.release]
    simp only [List.filter_filter]
    refine List.filter_congr fun l _ => ?_
    cases hl : gone l with
    | false => simp
    | true =>
      have hclient : (l.client == j) = false := by
        rw [hgone l hl]
        exact beq_eq_false_iff_ne.mpr (Ne.symm hne)
      simp [hclient]
  held _ := rfl
  history := by
    refine ⟨_, rfl, fun s hs => ?_⟩
    obtain ⟨l, hl, rfl⟩ := List.mem_map.mp hs
    rw [hgone l (List.mem_filter.mp hl).2]
    exact Ne.symm hne
  drift := .refl
  shared := fun h => h.release gone

/-- **A step of a call keeps the invariant**, and to what the others count on. -/
theorem StoreCall.Guar.shared (h : call.Guar so path c a b) (ha : Shared path a) :
    Shared path b ∧ ∀ j, j ≠ c → Alongside so path j a b := by
  have hdrift := h.drift ha
  have hordered := Fs.Drift.ordered hdrift ha.ordered
  obtain ⟨hacts, hleads⟩ := h
  cases hacts with
  | idle => exact ⟨ha, fun j _ => (neighbours_alongside so path j).refl a⟩
  | @outside fs' h =>
    have hlocks : Shared path { a with fs := fs' } := by
      refine ⟨hordered, ha.locks.imp_right ?_⟩
      rintro ⟨l, hl, hat⟩
      exact ⟨l, hl, hat.later (Fs.Drift.evolves hdrift)⟩
    refine ⟨hlocks, fun j _ => ⟨rfl, fun hheld => ?_, ⟨[], rfl, nofun⟩, hdrift, fun _ => hlocks⟩⟩
    -- While somebody has the lock, no directory is missing.
    obtain ⟨location, hat⟩ := ha.held_at hheld
    cases call with
    | creates => exact h.2.eq_of_at h.1 hat
    | opens | saves | restores => exact h
  | @acquire location hfree =>
    have hat : a.fs.At path location := by
      rcases hleads _ (List.mem_cons_self ..) with hold | hat
      · exact absurd rfl (hfree _ hold)
      · exact hat
    have hnone : a.locks = [] := by
      rcases ha.locks with hnone | ⟨l, hlocks, hat'⟩
      · exact hnone
      · exact absurd (hat'.unique hat) (hfree l (hlocks ▸ List.mem_singleton_self l))
    have hshared : Shared path { a with locks := ⟨location, c, a.fs⟩ :: a.locks } :=
      ⟨ha.ordered, .inr ⟨_, by rw [hnone], hat⟩⟩
    refine ⟨hshared, fun j hne => ⟨?_, fun _ => rfl, ⟨[], rfl, nofun⟩, .refl, fun _ => hshared⟩⟩
    rw [World.locksOf, List.filter_cons_of_neg (by simpa using Ne.symm hne)]
    rfl
  | @work l fs' hl hc h =>
    obtain ⟨hlocks, hat⟩ := ha.only hl
    have hshared : Shared path { a with fs := fs' } :=
      ⟨hordered, .inr ⟨l, hlocks, hat.later (Fs.Drift.evolves hdrift)⟩⟩
    refine ⟨hshared, fun j hne => ⟨rfl, fun hheld => absurd (World.idle_of_locks fun l' hl' => ?_) hheld,
      ⟨[], rfl, nofun⟩, hdrift, fun _ => hshared⟩⟩
    rw [hlocks, List.mem_singleton] at hl'
    rw [hl', hc]
    exact Ne.symm hne
  | release location =>
    refine ⟨ha.release _, fun j hne => Alongside.release (fun l hl => ?_) hne⟩
    exact beq_iff_eq.mp (Bool.and_eq_true_iff.mp hl).2

end Sharing

/-! ## The calls, verified -/

section Calls

variable {Hash : Type} {so : Sodium Hash} {path : Bytes} {faults : Bool} {c : Nat}
  {R : World → World → Prop} {w : World}

/-- Every lock of a call is taken where the path leads. -/
theorem StoreCall.program_locks [DecidableEq Hash] {call : StoreCall Hash}
    (hdrift : ∀ a b, R a b → Fs.Drift so path a.fs b.fs)
    (hpath : ∀ host env vault header retention, call = .saves host env vault header retention →
      vault.path = path) :
    (system true c R (Leads path)).wp (call.program so path) (fun _ _ => True) w := by
  have hlock : ∀ {α : Type} {refused : PvStatus → α} {body : Location → FileM α} {w : World},
      (system true c R (Leads path)).wp (underLock path refused body) (fun _ _ => True) w :=
    underLock_locks (staysPut_drift so path) hdrift
  cases call with
  | opens => exact wp_onFiles_any _
  | saves host env vault header retention =>
    obtain rfl := hpath _ _ _ _ _ rfl
    rw [StoreCall.program, pvStoreSave]
    split
    · trivial
    · exact hlock
  | creates =>
    refine Sem.wp_then (wp_onFiles_any _) fun status w₁ _ => ?_
    split
    · trivial
    · exact hlock
  | restores =>
    refine Sem.wp_then (wp_onFiles_any _) fun r w₁ _ => ?_
    cases r with
    | error status => trivial
    | ok backup =>
      dsimp only
      split
      · trivial
      · exact hlock

/-- What a save does under the lock, next to others. -/
structure SavesBeside (so : Sodium Hash) (host : Host) (faults : Bool) (env : SaveEnv) (vault : Vault Hash)
    (header : FileHeader) (location : Location) (fs : Fs) (r : PvStatus × Handle Hash) (fs' : Fs) :
    Prop where
  result : SaveWork so host faults env vault header location fs r fs'
  turnedAway : (∀ data, fs.active location = .holds data → so.generichash data ≠ vault.sourceHash) →
    TurnedAway so faults location vault header fs r fs'

theorem saves_beside [DecidableEq Hash] {host : Host} {env : SaveEnv} {vault : Vault Hash} {header : FileHeader}
    {retention : Nat} (hinj : Function.Injective so.generichash) (hR : Neighbours c R)
    (hdrift : ∀ a b, R a b → Fs.Drift so path a.fs b.fs) (hidle : w.Idle c)
    (hord : w.fs.Ordered path) (hpath : vault.path = path) (husable : header.Usable)
    (hdirty : vault.dirty = true) (hretention : retention ≠ 0) :
    (system faults c R (StoreCall.Acts so path c (.saves host env vault header retention))).wp
      (pvStoreSave so host env vault header retention)
      (LockOutcome faults c R path (fun status => (status, vault, header))
        (fun location fs r fs' => fs.LeadsTo path location ∧
          SavesBeside so host faults env vault header location fs r fs') w) w := by
  subst hpath
  rw [pvStoreSave, if_neg (by rw [hdirty]; exact fun h => h.elim (fun h => by cases h) hretention)]
  refine underLock_leads (staysPut_drift so vault.path) hdrift hR hidle fun location w₁ h₁ hleads => ?_
  have htidy := (Fs.Drift.ordered (hdrift _ _ h₁) hord).tidy location hleads.at
  by_cases hbase : ∃ data, w₁.fs.active location = .holds data ∧ so.generichash data = vault.sourceHash
  · refine Sem.wp_mono (saveLocked_spec hinj htidy (fun _ => .inl rfl) fun hseal a b hstep =>
      .inr ⟨_, ⟨husable, hbase, hseal, rfl⟩, hstep⟩) fun r fs' hresult => ⟨hresult, fun hnone => ?_⟩
    obtain ⟨data, hholds, hhash⟩ := hbase
    exact absurd hhash (hnone data hholds)
  · have hnone : ∀ data, w₁.fs.active location = .holds data →
        so.generichash data ≠ vault.sourceHash := fun data hholds hhash => hbase ⟨data, hholds, hhash⟩
    refine Sem.wp_sub (S := files faults Alone fun a b => True ∧ b = a) (fun _ _ _ _ h => h)
      (fun _ _ h => h) (fun _ _ h => .inl h.2) id ?_
    refine Sem.wp_mono (Sem.wp_and (S := files faults Alone fun _ _ => True) (G := fun _ _ => True)
      (saveLocked_spec hinj htidy (fun _ => trivial) fun _ _ _ _ => trivial)
      (saveLocked_turnedAway hnone)) fun r fs' h => ⟨h.1, fun _ => h.2⟩

/-- What is done without the lock keeps the files in order. -/
theorem Roams.ordered {outside : Fs → Fs → Prop} {w' : World} (h : Roams R outside w w')
    (hdrift : ∀ a b, R a b → Fs.Drift so path a.fs b.fs)
    (houtside : ∀ a b, outside a b → Fs.Moves so path a b) (hord : w.fs.Ordered path) :
    w'.fs.Ordered path := by
  induction h with
  | refl => exact hord
  | tail _ hstep ih =>
    rcases hstep with hrely | ⟨fs', hout, rfl⟩
    · exact Fs.Drift.ordered (hdrift _ _ hrely) ih
    · exact (houtside _ _ hout).ordered ih

/-- What comes of a creation, next to others. -/
def CreatesBeside (so : Sodium Hash) (path : Bytes) (faults : Bool) (c : Nat) (R : World → World → Prop)
    (env : CreateEnv) (password : Bytes) (recoveryKey : Block pvRecoveryKeyBytes) (w : World)
    (r : PvStatus × Option (Vault Hash)) (w' : World) : Prop :=
  ∃ w₁, Roams R (fun a b => path.head? = some 0x2f ∧
      Fs.Grows (Fs.components (parentPath path)) a b) w w₁ ∧
    (w' = w₁ ∧ ¬r.1.Committed ∨ LockOutcome faults c R path (fun status => (status, none))
      (fun location fs r fs' => fs.LeadsTo path location ∧
        CreateResult so faults env path password recoveryKey location fs r fs') w₁ r w')

theorem creates_beside [DecidableEq Hash] {host : Host} {env : CreateEnv} {password : Bytes}
    {recoveryKey : Block pvRecoveryKeyBytes} (hinj : Function.Injective so.generichash)
    (hR : Neighbours c R) (hdrift : ∀ a b, R a b → Fs.Drift so path a.fs b.fs) (hidle : w.Idle c)
    (hord : w.fs.Ordered path) :
    (system faults c R (StoreCall.Acts so path c (.creates host env password recoveryKey))).wp
      (pvStoreCreate so host env path password recoveryKey)
      (CreatesBeside so path faults c R env password recoveryKey w) w := by
  by_cases habs : path.head? = some 0x2f
  swap
  · rw [pvStoreCreate_relative habs]
    exact ⟨w, .refl, .inl ⟨rfl, show ¬PvStatus.errUsage.Committed by decide⟩⟩
  refine Sem.wp_then (wp_outside (ensureParentDirectory_spec onFiles_refl onFiles_trans
    fun _ _ h => ⟨habs, h⟩)) ?_
  rintro status w₁ ⟨hroams, -, hfailed, -⟩
  split
  · next hne => exact ⟨w₁, hroams, .inl ⟨rfl, hfailed hne⟩⟩
  have hord₁ := hroams.ordered hdrift (fun _ _ h => .grows h.1 h.2) hord
  refine Sem.wp_mono (underLock_leads (staysPut_drift so path) hdrift hR (hroams.idle hR hidle)
    fun location w₂ h₂ hleads => ?_) fun r w' h => ⟨w₁, hroams, .inr h⟩
  have htidy := (Fs.Drift.ordered (hdrift _ _ h₂) hord₁).tidy location hleads.at
  exact createLocked_spec hinj htidy (fun _ => .inl rfl) fun vault header hdrawn hseal a b hstep =>
    .inr ⟨_, ⟨vault, header, hdrawn, hseal, rfl⟩, hstep⟩

/-- What comes of a restore, next to others. -/
def RestoresBeside (so : Sodium Hash) (path : Bytes) (faults : Bool) (c : Nat) (R : World → World → Prop)
    (env : RestoreEnv) (expected : Hash) (w : World) (status : PvStatus) (w' : World) : Prop :=
  R w w' ∧ ¬status.Committed ∨ ∃ (backup : DiskFile Hash) (w₁ : World),
    backup.Reads so backup.bytes ∧ backup.hash = expected ∧ R w w₁ ∧
    LockOutcome faults c R path id (fun location fs status fs' => fs.LeadsTo path location ∧
      RestoreResult so faults (restorePlan so env location backup (fs.active location)) path backup fs
        status fs') w₁ status w'

theorem restores_beside [DecidableEq Hash] {host : Host} {env : RestoreEnv} {backupPath : Bytes} {expected : Hash}
    (hR : Neighbours c R) (hdrift : ∀ a b, R a b → Fs.Drift so path a.fs b.fs) (hidle : w.Idle c)
    (hord : w.fs.Ordered path) :
    (system faults c R (StoreCall.Acts so path c (.restores host env backupPath expected))).wp
      (pvStoreRestore so host env path backupPath expected)
      (RestoresBeside so path faults c R env expected w) w := by
  refine Sem.wp_then (wp_look hR (readDiskFile_whole so host (fun _ => rfl) (fun _ h => h)
    fun _ _ _ h h' hs => h' (h hs))) ?_
  rintro r w₁ ⟨h₁, hread⟩
  cases r with
  | error status => exact .inl ⟨h₁, hread.2 status rfl⟩
  | ok backup =>
  dsimp only
  split
  · exact .inl ⟨h₁, by decide⟩
  next hhash =>
  have hreads := hread.1 backup rfl
  have hord₁ := Fs.Drift.ordered (hdrift _ _ h₁) hord
  refine Sem.wp_mono (underLock_leads (staysPut_drift so path) hdrift hR (hR.idle h₁ hidle)
    fun location w₂ h₂ hleads => ?_) fun s w' h => .inr ⟨backup, w₁, hreads, not_not.mp hhash, h₁, h⟩
  have htidy := (Fs.Drift.ordered (hdrift _ _ h₂) hord₁).tidy location hleads.at
  exact restoreLocked_spec hreads htidy fun a b hstep =>
    .inr ⟨_, ⟨backup, hreads, not_not.mp hhash, rfl⟩, hstep⟩

/-- What an open returns, next to others. -/
def OpensBeside (so : Sodium Hash) (path : Bytes) (env : UnlockEnv) (credential : Bytes) (recovery : Bool)
    (fs : Fs) (r : Except PvStatus (Handle Hash)) (fs' : Fs) : Prop :=
  ∀ handle, r = .ok handle → ∃ disk, ReadActive so path disk fs fs' ∧
    openDisk so env path credential recovery disk = .ok handle

theorem Roams.still {w' : World} (hR : Neighbours c R) (h : Roams R (fun a b => b = a) w w') : R w w' := by
  induction h with
  | refl => exact hR.refl w
  | tail _ hstep ih =>
    rcases hstep with hrely | ⟨fs', rfl, rfl⟩
    · exact hR.trans _ _ _ ih hrely
    · exact ih

theorem onFiles_drift (hdrift : ∀ a b, R a b → Fs.Drift so path a.fs b.fs) {a b : Fs}
    (h : OnFiles R a b) : Fs.Drift so path a b := by
  induction h with
  | refl => exact .refl
  | tail _ hstep ih =>
    obtain ⟨w₁, w₂, hrely, rfl, rfl⟩ := hstep
    exact ih.trans (hdrift _ _ hrely)

theorem opens_beside {host : Host} {env : UnlockEnv} {credential : Bytes} {recovery : Bool}
    (hR : Neighbours c R) (hdrift : ∀ a b, R a b → Fs.Drift so path a.fs b.fs)
    (hord : w.fs.Ordered path) :
    (system faults c R (StoreCall.Acts so path c (.opens host env credential recovery))).wp
      (onFiles (openCommon so host env path credential recovery))
      (fun r w' => R w w' ∧ OpensBeside so path env credential recovery w.fs r w'.fs) w := by
  have hread : (files faults (OnFiles R) fun a b => b = a).wp
      (openCommon so host env path credential recovery)
      (OpensBeside so path env credential recovery w.fs) w.fs := by
    refine Sem.wp_sub (S := files faults (Fs.Drift so path) fun a b => b = a) (fun _ _ _ _ h => h)
      (fun _ _ h => onFiles_drift hdrift h) (fun _ _ h => h) id ?_
    refine Sem.wp_then (readDiskFile_beside host hord fun _ => rfl) ?_
    rintro r fs' ⟨-, hactive⟩
    cases r with
    | error status => exact fun handle h => nomatch h
    | ok disk => exact fun handle h => ⟨disk, hactive disk rfl, h⟩
  exact Sem.wp_mono (wp_outside hread) fun r w' h => ⟨h.1.still hR, h.2⟩

end Calls

/-! ## All clients together -/

section Known

variable {Hash : Type} {so : Sodium Hash} {path : Bytes} {c : Nat} {w w' : World} {a b : Fs}
  {own : Option (Handle Hash)} {handle : Handle Hash} {call : StoreCall Hash}

/-- What is known about a handle. -/
structure HandleOk (so : Sodium Hash) (path : Bytes) (handle : Handle Hash) (fs : Fs) : Prop where
  path_eq : handle.1.path = path
  usable : handle.2.Usable
  /-- its base is active, or was replaced -/
  rests : fs.Rests so path handle.1.sourceHash

theorem HandleOk.later (h : HandleOk so path handle a) (hdrift : Fs.Drift so path a b)
    (ha : a.Ordered path) : HandleOk so path handle b :=
  ⟨h.path_eq, h.usable, h.rests.later hdrift ha⟩

/-- **What is known about a client** between two calls. -/
structure Known (so : Sodium Hash) (path : Bytes) (c : Nat) (own : Option (Handle Hash)) (w : World) :
    Prop where
  shared : Shared path w
  idle : w.Idle c
  handle : ∀ handle, own = some handle → HandleOk so path handle w.fs

theorem Known.later (h : Known so path c own w) (hrely : Alongside so path c w w') :
    Known so path c own w' where
  shared := hrely.shared h.shared
  idle := (neighbours_alongside so path c).idle hrely h.idle
  handle handle hown := (h.handle handle hown).later hrely.drift h.shared.ordered

/-- Work under the lock leaves the files in order. -/
theorem Plan.Steps.ordered {plan : Plan} (h : plan.Steps a b) (hat : a.At path plan.location)
    (ha : a.Ordered path) : b.Ordered path := by
  have hat' := hat.later h.evolves
  refine ⟨fun location hother => ?_, fun hnone => absurd hat' (hnone _)⟩
  rw [← hat'.unique hother]
  exact h.tidy (ha.tidy _ hat)

theorem LockOutcome.idle {faults : Bool} {R : World → World → Prop} {α : Type} {refused : PvStatus → α}
    {Q : Location → Fs → α → Fs → Prop} {r : α} (hR : Neighbours c R)
    (h : LockOutcome faults c R path refused Q w r w') (hidle : w.Idle c) : w'.Idle c := by
  cases h with
  | refused h => exact hR.idle h.1 hidle
  | done _ _ _ _ _ _ hafter =>
    obtain ⟨w₁, hrely, -, hidle₁, -⟩ := hafter.after
    exact hR.idle hrely hidle₁

/-- The handle after a save. -/
theorem SaveResult.handleOk {host : Host} {faults : Bool} {env : SaveEnv} {vault : Vault Hash}
    {header : FileHeader} {location : Location} {r : PvStatus × Handle Hash} {fs : Fs}
    (h : SaveWork so host faults env vault header location a r b) (hleads : a.LeadsTo path location)
    (ha : a.Ordered path) (hdrift : Fs.Drift so path b fs)
    (hok : HandleOk so path (vault, header) fs) : HandleOk so path r.2 fs := by
  have husable : r.2.2.Usable := by
    obtain ⟨nonce, len, heq⟩ := h.header_eq
    rw [heq]
    exact hok.usable.withBody
  by_cases hcommitted : r.1.Committed
  swap
  · obtain ⟨hvault, -⟩ := h.refused hcommitted
    exact ⟨hvault ▸ hok.path_eq, husable, hvault ▸ hok.rests⟩
  have hdone := h.committed hcommitted
  rcases hdone.vault_eq with hvault | ⟨-, hvault⟩
  · -- What was written is active when the lock is given back.
    refine ⟨by rw [hvault]; exact hok.path_eq, husable, ?_⟩
    have hleads' : b.LeadsTo path location := h.steps.leadsTo hleads
    have hord : b.Ordered path := h.steps.ordered hleads.at ha
    refine Fs.Rests.later hdrift hord ⟨location, _, hleads', by rw [hvault], .inl ?_⟩
    exact hleads'.at.entry_eq.trans hdone.active
  · exact ⟨by rw [hvault]; exact hok.path_eq, husable, by rw [hvault]; exact hok.rests⟩

/-- A vault that was opened remembers the hash of the file. -/
theorem OpenedFrom.hash_eq {env : UnlockEnv} {credential : Bytes} {recovery : Bool} {disk : DiskFile Hash}
    {vmk key : Block pvWrapKeyBytes} {body : Bytes} {payload : Payload} {start vault : Vault Hash}
    (h : OpenedFrom so env path credential recovery disk vmk key body payload start vault) :
    vault.sourceHash = disk.hash := by
  obtain ⟨filled, hfilled, rfl⟩ := h.decoded.filled
  show filled.sourceHash = disk.hash
  rw [hfilled.rest_eq]

/-- The handle after an open. -/
theorem OpensBeside.handleOk {env : UnlockEnv} {credential : Bytes} {recovery : Bool}
    (h : OpensBeside so path env credential recovery a (.ok handle) b) (ha : a.Ordered path) :
    HandleOk so path handle b := by
  obtain ⟨disk, hread, hopen⟩ := h handle rfl
  obtain ⟨vault, header⟩ := handle
  obtain ⟨rfl, vmk, key, body, payload, start, hfrom⟩ := openDisk_opened hopen
  refine ⟨hfrom.named.1, hread.reads.header_v1.usable, ?_⟩
  obtain ⟨location, fs₁, h₁, h₂, hleads, hentry⟩ := hread.moment
  refine Fs.Rests.later h₂ (Fs.Drift.ordered h₁ ha) ⟨location, disk.bytes, hleads, ?_, .inl hentry⟩
  exact hread.reads.hash_eq.symm.trans hfrom.hash_eq.symm

end Known

section Together

variable {Hash : Type} [DecidableEq Hash] {so : Sodium Hash} {path : Bytes} {c : Nat} {w : World}
  {own : Option (Handle Hash)} {call : StoreCall Hash}

omit [DecidableEq Hash] in
/-- A call keeps the invariant and what is known about the handle it started with. -/
theorem StoreCall.wp_known {p : SysM call.Out} {Q : call.Out → World → Prop}
    (hknown : Known so path c own w)
    (hacts : (system true c (Alongside so path c) (call.Acts so path c)).wp p Q w)
    (hlocks : (system true c (Alongside so path c) (Leads path)).wp p (fun _ _ => True) w) :
    (system true c (Alongside so path c) (call.Guar so path c)).wp p
      (fun r w' => (Shared path w' ∧ ∀ handle, own = some handle → HandleOk so path handle w'.fs) ∧
        Q r w') w := by
  have hboth := Sem.wp_mono (system_and hacts hlocks) fun _ _ h => h.1
  refine Sem.wp_invariant (S := system true c (Alongside so path c) (call.Guar so path c))
    (I := fun w => Shared path w ∧ ∀ handle, own = some handle → HandleOk so path handle w.fs)
    (fun a b hI hrely => ?_) (fun a b hI hguar => ⟨?_, hguar⟩) hboth ⟨hknown.shared, hknown.handle⟩
  · exact ⟨hrely.shared hI.1, fun handle hown => (hI.2 handle hown).later hrely.drift hI.1.ordered⟩
  · refine ⟨(StoreCall.Guar.shared hguar hI.1).1, fun handle hown => ?_⟩
    exact (hI.2 handle hown).later (StoreCall.Guar.drift hguar hI.1) hI.1.ordered

/-- **Every call is verified** next to any others. -/
theorem StoreCall.verified (hinj : Function.Injective so.generichash) (hknown : Known so path c own w)
    (hoffer : call.Offered own) :
    (system true c (Alongside so path c) (call.Guar so path c)).wp (call.program so path)
      (fun r w' => Known so path c (call.kept own r) w') w := by
  have hR := neighbours_alongside so path c
  have hdrift : ∀ a b, Alongside so path c a b → Fs.Drift so path a.fs b.fs := fun _ _ h => h.drift
  have hord := hknown.shared.ordered
  have hlocks : (system true c (Alongside so path c) (Leads path)).wp (call.program so path)
      (fun _ _ => True) w := by
    refine StoreCall.program_locks hdrift ?_
    rintro host env vault header retention rfl
    exact (hknown.handle _ hoffer).path_eq
  cases call with
  | opens host env credential recovery =>
    refine Sem.wp_mono (StoreCall.wp_known hknown (opens_beside hR hdrift hord) hlocks) ?_
    rintro r w' ⟨⟨hshared, hown⟩, hrely, hopens⟩
    have hidle := hR.idle hrely hknown.idle
    cases r with
    | error status => exact ⟨hshared, hidle, hown⟩
    | ok handle =>
      refine ⟨hshared, hidle, ?_⟩
      rintro handle' ⟨⟩
      exact hopens.handleOk hord
  | saves host env vault header retention =>
    obtain rfl : own = some (vault, header) := hoffer
    have hhandle := hknown.handle _ rfl
    by_cases hnone : vault.dirty = false ∨ retention = 0
    · have hprogram : StoreCall.program so path (.saves host env vault header retention) =
          .ret (if vault.dirty = false then .ok else .errUsage, vault, header) := by
        rw [StoreCall.program, pvStoreSave, if_pos hnone]
        rfl
      rw [hprogram]
      exact hknown
    have hdirty : vault.dirty = true := by
      cases hd : vault.dirty with
      | true => rfl
      | false => exact absurd (.inl hd) hnone
    refine Sem.wp_mono (StoreCall.wp_known hknown (saves_beside hinj hR hdrift hknown.idle hord
      hhandle.path_eq hhandle.usable hdirty fun h => hnone (.inr h)) hlocks) ?_
    rintro r w' ⟨⟨hshared, hown⟩, houtcome⟩
    refine ⟨hshared, houtcome.idle hR hknown.idle, ?_⟩
    rintro handle ⟨⟩
    have hkept := hown _ rfl
    cases houtcome with
    | refused => exact hkept
    | done _ _ _ h₁ _ hQ hafter =>
      obtain ⟨w₂, h₂, rfl, -⟩ := hafter.after
      have hord₁ := Fs.Drift.ordered h₁.drift hord
      exact SaveResult.handleOk hQ.2.result hQ.1 hord₁ h₂.drift hkept
  | creates host env password recoveryKey =>
    refine Sem.wp_mono (StoreCall.wp_known hknown
      (creates_beside hinj hR hdrift hknown.idle hord) hlocks) ?_
    rintro r w' ⟨⟨hshared, hown⟩, w₁, hroams, houtcome⟩
    refine ⟨hshared, ?_, hown⟩
    rcases houtcome with ⟨rfl, -⟩ | houtcome
    · exact hroams.idle hR hknown.idle
    · exact houtcome.idle hR (hroams.idle hR hknown.idle)
  | restores host env backupPath expected =>
    refine Sem.wp_mono (StoreCall.wp_known hknown (restores_beside hR hdrift hknown.idle hord) hlocks) ?_
    rintro r w' ⟨⟨hshared, hown⟩, houtcome⟩
    refine ⟨hshared, ?_, hown⟩
    rcases houtcome with ⟨hrely, -⟩ | ⟨backup, w₁, -, -, h₁, houtcome⟩
    · exact hR.idle hrely hknown.idle
    · exact houtcome.idle hR (hR.idle h₁ hknown.idle)

/-- **The clients next to each other.** -/
def clients (so : Sodium Hash) (path : Bytes) (hinj : Function.Injective so.generichash) :
    Verified (store so path) where
  inv := Shared path
  rely := Alongside so path
  guar := StoreCall.Guar so path
  idle := Known so path
  post c own call r w := Known so path c (call.kept own r) w
  refl c := (neighbours_alongside so path c).refl
  trans c := (neighbours_alongside so path c).trans
  idle_rely _ _ _ _ h hrely := h.later hrely
  post_rely _ _ _ _ _ _ h hrely := h.later hrely
  program c own call w _ hknown hoffer :=
    Sem.wp_sub (S := system true c (Alongside so path c) (StoreCall.Guar so path c call))
      (fun _ _ _ _ h => h) (fun _ _ h => h) (fun _ _ h => h) (fun _ => trivial)
      (StoreCall.verified hinj hknown hoffer)
  finish _ _ _ _ _ h := h
  think c own own' w hknown hthink := by
    refine ⟨hknown.shared, hknown.idle, fun handle hown => ?_⟩
    cases hthink with
    | closes => cases hown
    | changes hpath hhash husable =>
      cases hown
      have hok := hknown.handle _ rfl
      exact ⟨hpath.trans hok.path_eq, husable hok.usable, hhash ▸ hok.rests⟩
  step _ _ _ _ ha hguar := StoreCall.Guar.shared hguar ha
  leave _ a ha := ⟨ha.release _, fun _ hne => Alongside.release (fun _ hl => beq_iff_eq.mp hl) hne⟩

end Together

end PVault
