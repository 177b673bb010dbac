import PVault.Retry
import PVault.Updates

/-!
# Nobody blocks the vault (`src/store.c`)

Clients are stopped in the middle of a save, calls fail, and `flock` itself may refuse to unlock.
None of this leaves a lock behind: at every point of every run the lock belongs to a client that
is inside a call which needs it (`lock_belongs_to_a_call`). So whatever has happened before, a
client that is left alone with a current handle can save (`save_succeeds_after_anything`).
-/

namespace PVault

open Binary Conc

section Discipline

variable {Hash : Type} [DecidableEq Hash] {so : Sodium Hash} {path : Bytes} {c : Nat}
  {start s s' : Sessions (store so path)}

/-- The calls that need the lock. -/
def StoreCall.NeedsLock : StoreCall Hash → Prop
  | .opens .. => False
  | _ => True

/-- A call on files. -/
def SysOp.OnFile (op : SysOp) : Prop := ∃ file, op = .file file

theorem only_onFiles {α : Type} (p : FileM α) : (onFiles p).Only SysOp.OnFile fun _ => True := by
  induction p with
  | ret a => trivial
  | spin => trivial
  | call op k ih => exact ⟨⟨op, rfl⟩, ih⟩

/-- **Clients that are gone and clients that open have no lock**, and an open works on files
only. -/
structure Discipline (s : Sessions (store so path)) : Prop where
  gone : ∀ c, s.seat c = .gone → s.world.Idle c
  opens : ∀ (c : Nat) (own : Option (Handle Hash)) (host : Host) (env : UnlockEnv) (credential : Bytes)
    (recovery : Bool) (rest : SysM (Except PvStatus (Handle Hash))),
    s.seat c = .busy own (StoreCall.opens host env credential recovery) rest →
      s.world.Idle c ∧ rest.Only SysOp.OnFile fun _ => True

/-- What a step of one client has to show. -/
theorem Discipline.of_client {hinj : Function.Injective so.generichash} (h : Discipline s)
    (hholds : (clients so path hinj).Holds s) (hstep : Sessions.Step c s s')
    (hgone : s'.seat c = .gone → s'.world.Idle c)
    (hopens : ∀ (own : Option (Handle Hash)) (host : Host) (env : UnlockEnv) (credential : Bytes)
      (recovery : Bool) (rest : SysM (Except PvStatus (Handle Hash))),
      s'.seat c = .busy own (StoreCall.opens host env credential recovery) rest →
        s'.world.Idle c ∧ rest.Only SysOp.OnFile fun _ => True) : Discipline s' := by
  -- The others keep their locks.
  have hothers : ∀ j, j ≠ c → s.world.Idle j → s'.world.Idle j := fun j hne hidle =>
    (neighbours_alongside so path j).idle (hholds.rely hstep hne) hidle
  constructor
  · intro j hseat
    by_cases hj : j = c
    · subst hj
      exact hgone hseat
    · rw [hstep.seat_ne hj] at hseat
      exact hothers j hj (h.gone j hseat)
  · intro j own host env credential recovery rest hseat
    by_cases hj : j = c
    · subst hj
      exact hopens own host env credential recovery rest hseat
    · rw [hstep.seat_ne hj] at hseat
      obtain ⟨hidle, honly⟩ := h.opens j own host env credential recovery rest hseat
      exact ⟨hothers j hj hidle, honly⟩

/-- A client that is stopped gives back its locks. -/
theorem World.idle_release (w : World) : (w.release fun l => l.client == c).Idle c :=
  World.idle_of_locks fun l hl => by simpa using (List.mem_filter.mp hl).2

/-- **Every step keeps the discipline.** -/
theorem Discipline.step {hinj : Function.Injective so.generichash} (h : Discipline s)
    (hholds : (clients so path hinj).Holds s) (hstep : Sessions.Step c s s') : Discipline s' := by
  have hknown := hholds.seats c
  refine h.of_client hholds hstep (fun hseat => ?_) fun own host env credential recovery rest hseat => ?_
  · cases hstep with
    | leave => exact World.idle_release _
    | begin | call | finish | think =>
      rw [Sessions.seat_update] at hseat
      cases hseat
  · cases hstep with
    | begin hidle =>
      rw [Sessions.seat_update] at hseat
      cases hseat
      rw [hidle] at hknown
      exact ⟨hknown.idle, only_onFiles _⟩
    | call hbusy hop =>
      rw [Sessions.seat_update] at hseat
      cases hseat
      obtain ⟨hidle, ⟨file, rfl⟩, honly⟩ := h.opens _ _ _ _ _ _ _ hbusy
      cases hop with
      | file => exact ⟨hidle, honly _⟩
    | finish | think | leave =>
      rw [Sessions.seat_update] at hseat
      cases hseat

theorem Discipline.run {hinj : Function.Injective so.generichash} (h : Discipline s)
    (hholds : (clients so path hinj).Holds s) (hrun : Sessions.Run s s') : Discipline s' := by
  induction hrun with
  | refl => exact h
  | tail hprev hstep ih =>
    obtain ⟨c, hstep⟩ := hstep
    exact ih.step (Verified.holds hholds hprev) hstep

theorem Begins.discipline (h : Begins so path s) : Discipline s := by
  constructor
  · intro c hseat
    obtain ⟨own, hidle, -⟩ := h.idle c
    rw [hidle] at hseat
    cases hseat
  · intro c own host env credential recovery rest hseat
    obtain ⟨own, hidle, -⟩ := h.idle c
    rw [hidle] at hseat
    cases hseat

/-- Whoever has a lock is inside a call that needs it. -/
theorem Discipline.holder {hinj : Function.Injective so.generichash} {l : Lock} (h : Discipline s)
    (hholds : (clients so path hinj).Holds s) (hl : l ∈ s.world.locks) :
    ∃ (own : Option (Handle Hash)) (call : StoreCall Hash) (rest : SysM call.Out),
      s.seat l.client = .busy own call rest ∧ call.NeedsLock := by
  have hheld : ¬s.world.Idle l.client := fun hidle => by
    simpa using List.filter_eq_nil_iff.mp hidle l hl
  have hknown := hholds.seats l.client
  cases hseat : s.seat l.client with
  | gone => exact absurd (h.gone _ hseat) hheld
  | idle own =>
    rw [hseat] at hknown
    exact absurd hknown.idle hheld
  | busy own call rest =>
    refine ⟨own, call, rest, rfl, ?_⟩
    cases call with
    | opens => exact absurd (h.opens _ _ _ _ _ _ _ hseat).1 hheld
    | saves | creates | restores => trivial

/-- **The lock belongs to a call.** At every point of every run at most one client has a lock, where
the path leads, and it is inside a call that needs it: no failure and no stop leaves one behind. -/
theorem lock_belongs_to_a_call (hinj : Function.Injective so.generichash) (hbegins : Begins so path start)
    (hrun : Sessions.Run start s) :
    s.world.locks.length ≤ 1 ∧ ∀ l ∈ s.world.locks, s.world.fs.At path l.location ∧
      ∃ (own : Option (Handle Hash)) (call : StoreCall Hash) (rest : SysM call.Out),
        s.seat l.client = .busy own call rest ∧ call.NeedsLock := by
  have hholds := Verified.holds (hbegins.holds hinj) hrun
  have hdiscipline := hbegins.discipline.run (hbegins.holds hinj) hrun
  have hshared : Shared path s.world := hholds.inv
  refine ⟨?_, fun l hl => ⟨(hshared.only hl).2, hdiscipline.holder hholds hl⟩⟩
  rcases hshared.locks with hnone | ⟨l, hone, -⟩
  · rw [hnone]
    exact Nat.zero_le _
  · rw [hone]
    exact le_refl _

end Discipline

/-- The second of two clients has got the lock for a save. -/
theorem exists_second_locked : ∃ (s : Sessions (store Sodium.toy vaultPath))
    (rest : SysM (PvStatus × Handle Bytes)), Sessions.Run (twoClients true) s ∧
      s.world = ⟨onlyVault 1 0, [⟨vaultPlace, 1, onlyVault 1 0⟩], []⟩ ∧
      s.seat 1 = .busy (twoHandles true 1)
        (StoreCall.saves plainHost (readyEnv 5) (emptyHandle 1 0) backupHeader 1) rest ∧
      ∀ j, j ≠ 1 → s.seat j = .idle (twoHandles true j) := by
  have hbegin : During (S := store Sodium.toy vaultPath) 1 (twoHandles true 1)
      (StoreCall.saves plainHost (readyEnv 5) (emptyHandle 1 0) backupHeader 1)
      (World.Step false 1) (fun _ => True) (twoClients true) _ := .begin rfl rfl trivial
  obtain ⟨s, hs, hworld, hseat, hothers⟩ := hbegin.follow (Sessions.seat_update ..) rfl
    ((lockVault_onlyVault 1).bind _) (fun _ _ h => h) (fun _ _ _ _ h => ⟨h.mayFail, h⟩) fun _ => trivial
  exact ⟨s, _, hs.run, hworld, hseat, fun j hne =>
    (hothers j hne).trans (Function.update_of_ne hne _ _)⟩

/-- It is stopped there. -/
theorem exists_second_stopped : ∃ s s' : Sessions (store Sodium.toy vaultPath),
    Sessions.Run (twoClients true) s ∧ s.world.locks = [⟨vaultPlace, 1, onlyVault 1 0⟩] ∧
      Sessions.Step 1 s s' ∧ s'.world.fs = onlyVault 1 0 ∧ s'.seat 1 = .gone ∧
      ∀ j, j ≠ 1 → s'.seat j = .idle (twoHandles true j) := by
  obtain ⟨s, rest, hrun, hworld, -, hothers⟩ := exists_second_locked
  refine ⟨s, _, hrun, by rw [hworld], .leave _, ?_, Sessions.seat_update .., fun j hne =>
    (Function.update_of_ne hne _ _).trans (hothers j hne)⟩
  rw [hworld]
  rfl

/-- A client that has the lock is inside a save; when it is stopped there, nobody has one. -/
theorem lock_belongs_to_a_call_stopped : ∃ s s' : Sessions (store Sodium.toy vaultPath),
    Sessions.Run (twoClients true) s ∧ s.world.locks = [⟨vaultPlace, 1, onlyVault 1 0⟩] ∧
      (∃ (own : Option (Handle Bytes)) (call : StoreCall Bytes) (rest : SysM call.Out),
        s.seat 1 = .busy own call rest ∧ call.NeedsLock) ∧
      Sessions.Step 1 s s' ∧ s'.seat 1 = .gone ∧ s'.world.locks = [] := by
  obtain ⟨s, s', hrun, hlocks, hstep, -, hgone, hothers⟩ := exists_second_stopped
  obtain ⟨-, hheld⟩ := lock_belongs_to_a_call Sodium.toy_injective (twoClients_begins true) hrun
  obtain ⟨-, hheld'⟩ := lock_belongs_to_a_call Sodium.toy_injective (twoClients_begins true)
    (hrun.tail ⟨1, hstep⟩)
  refine ⟨s, s', hrun, hlocks, (hheld _ (hlocks ▸ List.mem_singleton_self _)).2, hstep, hgone,
    List.eq_nil_iff_forall_not_mem.mpr fun l hl => ?_⟩
  -- Nobody is inside a call any more.
  obtain ⟨-, own, call, rest, hbusy, -⟩ := hheld' l hl
  by_cases hone : l.client = 1
  · rw [hone, hgone] at hbusy
    cases hbusy
  · rw [hothers _ hone] at hbusy
    cases hbusy

section Progress

variable {Hash : Type} [DecidableEq Hash] {so : Sodium Hash} {path : Bytes} {c : Nat}
  {start s : Sessions (store so path)} {host : Host} {env : SaveEnv} {vault : Vault Hash}
  {header : FileHeader} {retention : Nat} {location : Location} {current : DiskFile Hash}

/-- What a save needs of the files: the path leads to a place with room for its temporaries, the
active file is the snapshot the handle is based on, and the name for its copy is not taken by
something else. -/
structure Saveable (so : Sodium Hash) (path : Bytes) (host : Host) (env : SaveEnv) (vault : Vault Hash)
    (header : FileHeader) (location : Location) (current : DiskFile Hash) (fs : Fs) : Prop where
  leadsTo : fs.LeadsTo path location
  short : location.name.length + 13 < pathMax
  roomy : (savePlan so env location vault header false (fs.active location)).Roomy host fs
  based : fs.Current so location vault current
  backupFree : fs.BackupFree so (savePlan so env location vault header false (fs.active location))
    vault.vaultId current

/-- A save that succeeded: what the vault is sealed into is active, and the handle is based on
it. -/
def SavedAnew (so : Sodium Hash) (path : Bytes) (env : SaveEnv) (vault : Vault Hash) (header : FileHeader)
    (r : PvStatus × Handle Hash) (fs : Fs) : Prop :=
  r.1 = .ok ∧ ∃ new, fs.entry path = .holds new ∧ SealsInto so env vault header new ∧
    r.2.1.sourceHash = so.generichash new

/-- **A client that is left alone can save, whatever has happened before**: when no other client is
inside a call that needs the lock, every run of the save in which no call fails returns `PV_OK` with
the new snapshot active and the handle based on it, and there is such a run. -/
theorem save_succeeds_after_anything (hinj : Function.Injective so.generichash)
    (hbegins : Begins so path start) (hrun : Sessions.Run start s)
    (hseat : s.seat c = .idle (some (vault, header)))
    (hquiet : ∀ j (own : Option (Handle Hash)) (call : StoreCall Hash) (rest : SysM call.Out),
      s.seat j = .busy own call rest → ¬call.NeedsLock)
    (hdirty : vault.dirty = true) (hretention : retention ≠ 0) (hpos : vault.generation ≠ 0)
    (hseal : vault.Sealable so env header)
    (hsaveable : Saveable so path host env vault header location current s.world.fs) :
    (∀ r w', Sem.Run (undisturbed c) (pvStoreSave so host env vault header retention) s.world (.ret r) w' →
      SavedAnew so path env vault header r w'.fs) ∧
    ∃ r s', Answers so path false (fun _ => True) c (some (vault, header))
        (.saves host env vault header retention) s r s' ∧
      (∀ j, j ≠ c → s'.seat j = s.seat j) ∧ SavedAnew so path env vault header r s'.world.fs := by
  have hholds := Verified.holds (hbegins.holds hinj) hrun
  have hdiscipline := hbegins.discipline.run (hbegins.holds hinj) hrun
  have hknown : Known so path c (some (vault, header)) s.world := by
    have hknown := hholds.seats c
    rwa [hseat] at hknown
  obtain rfl : vault.path = path := (hknown.handle _ rfl).path_eq
  have haccess : s.world.Accessible host vault.path location
      (savePlan so env location vault header false (s.world.fs.active location)) := by
    refine ⟨hsaveable.leadsTo, hknown.shared.ordered.tidy _ hsaveable.leadsTo.at, fun l hl => ?_,
      hsaveable.short, hsaveable.roomy⟩
    obtain ⟨own, call, rest, hbusy, hneeds⟩ := hdiscipline.holder hholds hl
    exact absurd hneeds (hquiet _ own call rest hbusy)
  have hsucceeds : (system false c (fun a b => b = a) (Acts c (fun _ _ => True) fun _ _ _ _ => True)).wp
      (pvStoreSave so host env vault header retention)
      (fun r w' => SavedAnew so vault.path env vault header r w'.fs) s.world := by
    refine Sem.wp_mono (pvStoreSave_succeeds hinj hknown.idle hdirty hretention haccess hsaveable.based
      hseal hpos hsaveable.backupFree) ?_
    rintro r w' ⟨hok, hwork, -⟩
    have hdone := hwork.committed (.inl hok)
    obtain ⟨ciphertext, hsealed⟩ := hdone.sealed_eq
    refine ⟨hok, sealedBytes (sealVault so env (vault.stamped env.now) header), ?_,
      sealsInto_content (congrArg Prod.fst hsealed), ?_⟩
    · exact (hsaveable.leadsTo.at.later hwork.steps.evolves).entry_eq.trans hdone.active
    · rcases hdone.vault_eq with hvault | ⟨hstatus, -⟩
      · rw [hvault]
        rfl
      · rw [hok] at hstatus
        cases hstatus
  exact ⟨fun r w' hsave => (neighbours_none c).returned (fun _ _ _ hq h => h ▸ hq) hsucceeds hsave,
    Answers.exists_alone (.saves host env vault header retention) hsucceeds hseat rfl
      (fun _ _ _ h => h) trivial⟩

end Progress

/-- The first client saves after the second was stopped with the lock. -/
theorem save_succeeds_after_stopped : ∃ s : Sessions (store Sodium.toy vaultPath),
    Sessions.Run (twoClients true) s ∧ s.seat 1 = .gone ∧
    (∀ r w', Sem.Run (undisturbed 0) (pvStoreSave Sodium.toy plainHost (readyEnv 5)
        (emptyHandle 1 0) backupHeader 1) s.world (.ret r) w' →
      SavedAnew Sodium.toy vaultPath (readyEnv 5) (emptyHandle 1 0) backupHeader r w'.fs) ∧
    ∃ r s', Answers Sodium.toy vaultPath false (fun _ => True) 0 (some (emptyHandle 1 0, backupHeader))
        (.saves plainHost (readyEnv 5) (emptyHandle 1 0) backupHeader 1) s r s' ∧
      (∀ j, j ≠ 0 → s'.seat j = s.seat j) ∧
      SavedAnew Sodium.toy vaultPath (readyEnv 5) (emptyHandle 1 0) backupHeader r s'.world.fs := by
  obtain ⟨s, s', hrun, -, hstep, hfs, hgone, hothers⟩ := exists_second_stopped
  obtain ⟨disk, hcurrent⟩ := onlyVault_current 1 0
  have hsaveable : Saveable Sodium.toy vaultPath plainHost (readyEnv 5) (emptyHandle 1 0)
      backupHeader vaultPlace disk s'.world.fs := by
    rw [hfs]
    exact ⟨onlyVault_leadsTo 1 0, by decide, (onlyVault_noScratch 1 0).roomy, hcurrent,
      onlyVault_backupFree 1 0 rfl⟩
  refine ⟨s', hrun.tail ⟨1, hstep⟩, hgone, save_succeeds_after_anything Sodium.toy_injective
    (twoClients_begins true) (hrun.tail ⟨1, hstep⟩) (hothers 0 Nat.zero_ne_one) ?_ rfl Nat.one_ne_zero
    (by decide) (emptyHandle_sealable 1 0 5 (by decide) (by decide)) hsaveable⟩
  intro j own call rest hbusy
  by_cases hj : j = 1
  · rw [hj, hgone] at hbusy
    cases hbusy
  · rw [hothers j hj] at hbusy
    cases hbusy

end PVault
