import PVault.Clients
import Mathlib.Data.List.Chain

/-!
# No update is lost (`src/store.c`)

The clients of one vault act next to each other, call by call and operation by operation. What
the path shows changes only as a call of the right kind allows, over the snapshot that the call
may replace (`StoreCall.Commits`), and every answer a client gets tells it what happened.

* `Sessions.Step.commits` — one operation: a save replaces the snapshot with the hash that its
  handle has, a creation takes a free name, a restore installs the snapshot it was asked for.
* `Serial` — the turns under the lock follow each other: each finds what the last one left.
* `Answers.saved`, `Answers.turned`, `Answers.spared`, `Answers.created`, `Answers.opened` — what the
  answer of a call says about the turn it had, or about the moment it read.
-/

namespace PVault

open Binary Conc

/-! ## One operation -/

section Commits

variable {Hash : Type} {so : Sodium Hash} {path : Bytes} {call : StoreCall Hash} {c : Nat} {a b : World}

/-- **How a call may change what the path shows.** -/
inductive StoreCall.Commits (so : Sodium Hash) (path : Bytes) : StoreCall Hash → Slot → Slot → Prop
  | saves {host : Host} {env : SaveEnv} {vault : Vault Hash} {header : FileHeader} {retention : Nat}
      {old new : Bytes} (hbase : so.generichash old = vault.sourceHash)
      (hnew : SealsInto so env vault header new) :
      Commits so path (.saves host env vault header retention) (.holds old) (.holds new)
  | creates {host : Host} {env : CreateEnv} {password : Bytes} {recoveryKey : Block pvRecoveryKeyBytes}
      {new : Bytes} (hnew : CreatesSnapshot so env path password recoveryKey new) :
      Commits so path (.creates host env password recoveryKey) .absent (.holds new)
  | restores {host : Host} {env : RestoreEnv} {backupPath : Bytes} {expected : Hash} {old : Slot}
      {new : Bytes} (hnew : Expected so expected new) :
      Commits so path (.restores host env backupPath expected) old (.holds new)

/-- A plan that a call follows changes the active name as the call may. -/
theorem StoreCall.Allows.commits {location : Location} {start fs fs' : Fs} {plan : Plan}
    (h : call.Allows so path location start plan) (hstep : plan.Step fs fs')
    (htidy : fs.Tidy location) :
    fs'.active location = fs.active location ∨
      call.Commits so path (fs.active location) (fs'.active location) := by
  obtain ⟨hlocation, -, -⟩ := h.plan
  have hactive := hstep.active (hlocation ▸ htidy)
  rw [hlocation] at hactive
  refine hactive.imp_right ?_
  rintro ⟨hnew, hcases⟩
  rw [hnew]
  cases call with
  | opens => exact h.elim
  | saves host env vault header retention =>
    obtain ⟨-, ⟨data, hholds, -⟩, hseal, rfl⟩ := h
    rcases hcases with ⟨old, -, ⟨-, hbase⟩, hactive, -⟩ | ⟨hfree, -⟩
    · rw [hactive]
      exact .saves hbase (sealsInto_content hseal)
    · exact nomatch hholds.symm.trans hfree
  | creates host env password recoveryKey =>
    obtain ⟨vault, header, hdrawn, hseal, rfl⟩ := h
    rcases hcases with ⟨old, -, ⟨hcreate, -⟩, -⟩ | ⟨-, hfree⟩
    · cases hcreate
    · rw [show fs.active _ = Slot.absent by rw [Fs.active, Fs.slot, hfree]]
      exact .creates ⟨vault, header, hdrawn, sealsInto_content hseal⟩
  | restores host env backupPath expected =>
    obtain ⟨backup, hreads, hhash, rfl⟩ := h
    exact .restores ⟨hreads.hash_eq.symm.trans hhash, backup, hreads⟩

/-- **A step of a call** leaves what the path shows, or changes it as the call may. -/
theorem StoreCall.Guar.commits (h : call.Guar so path c a b) (ha : Shared path a) :
    b.fs.entry path = a.fs.entry path ∨
      call.Commits so path (a.fs.entry path) (b.fs.entry path) := by
  obtain ⟨hacts, -⟩ := h
  cases hacts with
  | idle | acquire | release => exact .inl rfl
  | outside h =>
    cases call with
    | creates => exact .inl (h.2.entry_eq h.1)
    | opens | saves | restores => exact .inl (congrArg (Fs.entry · path) h)
  | work hl hc h =>
    obtain ⟨-, hat⟩ := ha.only hl
    rcases h with heq | ⟨plan, hplan, hstep⟩
    · exact .inl (congrArg (Fs.entry · path) heq)
    · have hat' := hat.later hstep.evolves
      rw [hat.entry_eq, hat'.entry_eq]
      exact hplan.commits hstep (ha.ordered.tidy _ hat)

/-- A name that is taken stays so. -/
theorem StoreCall.Commits.bound {old new : Slot} (h : call.Commits so path old new) : new ≠ .absent := by
  cases h <;> exact nofun

variable [DecidableEq Hash] {hinj : Function.Injective so.generichash} {s s' : Sessions (store so path)}

/-- **What a step of a client changes.** -/
theorem step_commits (h : (clients so path hinj).Holds s) (hstep : Sessions.Step c s s') :
    s'.world.fs.entry path = s.world.fs.entry path ∨
      ∃ (own : Option (Handle Hash)) (call : StoreCall Hash) (rest : SysM call.Out),
        s.seat c = .busy own call rest ∧
          call.Commits so path (s.world.fs.entry path) (s'.world.fs.entry path) := by
  cases hstep with
  | begin | finish | think | leave => exact .inl rfl
  | call hbusy hop =>
    refine (StoreCall.Guar.commits (h.call hbusy hop).1 h.inv).imp_right fun hcommits => ?_
    exact ⟨_, _, _, hbusy, hcommits⟩

end Commits

/-! ## Turns under the lock -/

section Serial

variable {Hash : Type} {so : Sodium Hash} {path : Bytes} {call : StoreCall Hash} {c : Nat} {a b : World}

/-- What the last turn left, if there was one, is what the slot shows. -/
def Left (path : Bytes) (history : List Section) (shown : Slot) : Prop :=
  ∀ last ∈ history.head?, shown = last.stop.entry path

/-- **The turns under the lock follow each other**: each finds what the one before it left, and a
name that is taken stays so. -/
structure Serial (path : Bytes) (w : World) : Prop where
  chain : w.history.IsChain fun next last => next.start.entry path = last.stop.entry path
  bound : ∀ turn ∈ w.history, turn.start.entry path ≠ .absent → turn.stop.entry path ≠ .absent
  held : ∀ l ∈ w.locks, Left path w.history (l.start.entry path) ∧
    (l.start.entry path ≠ .absent → w.fs.entry path ≠ .absent)
  free : w.locks = [] → Left path w.history (w.fs.entry path)

/-- A turn ends when its lock is given back. -/
theorem Serial.release (h : Serial path a) (ha : Shared path a) (gone : Lock → Bool) :
    Serial path (a.release gone) := by
  rcases ha.locks with hnone | ⟨l, hlocks, -⟩
  · have hsame : a.release gone = a := by
      obtain ⟨fs, locks, history⟩ := a
      obtain rfl : locks = [] := hnone
      rfl
    rwa [hsame]
  obtain ⟨hleft, hbound⟩ := h.held l (hlocks ▸ List.mem_singleton_self l)
  by_cases hl : gone l
  · have hrelease : a.release gone =
        ⟨a.fs, [], ⟨l.location, l.client, l.start, a.fs⟩ :: a.history⟩ := by
      rw [World.release, hlocks]
      simp [hl]
    rw [hrelease]
    refine ⟨List.isChain_cons.mpr ⟨hleft, h.chain⟩, ?_, List.forall_mem_nil _, ?_⟩
    · rintro turn hturn
      rcases List.mem_cons.mp hturn with rfl | hturn
      · exact hbound
      · exact h.bound turn hturn
    · rintro - last ⟨⟩
      rfl
  · have hsame : a.release gone = a := by
      rw [World.release, hlocks]
      simp only [hl, List.filter_cons, List.filter_nil, Bool.not_false]
      rw [← hlocks]
      rfl
    rwa [hsame]

/-- Files that change under a lock only. -/
theorem Serial.files {fs' : Fs} (h : Serial path a) (hbound : a.fs.entry path ≠ .absent →
      fs'.entry path ≠ .absent) (hfree : a.locks = [] → fs'.entry path = a.fs.entry path) :
    Serial path { a with fs := fs' } where
  chain := h.chain
  bound := h.bound
  held l hl := ⟨(h.held l hl).1, fun hne => hbound ((h.held l hl).2 hne)⟩
  free hnone := by
    show Left path a.history (fs'.entry path)
    rw [hfree hnone]
    exact h.free hnone

/-- **Every step of a call keeps the turns in order.** -/
theorem StoreCall.Guar.serial (h : call.Guar so path c a b) (ha : Shared path a)
    (hserial : Serial path a) : Serial path b := by
  have hbound : a.fs.entry path ≠ .absent → b.fs.entry path ≠ .absent := fun hne => by
    rcases h.commits ha with hsame | hcommits
    · rwa [hsame]
    · exact hcommits.bound
  have hshared := (h.shared ha).1
  obtain ⟨hacts, -⟩ := h
  cases hacts with
  | idle => exact hserial
  | outside h =>
    refine hserial.files hbound fun _ => ?_
    cases call with
    | creates => exact h.2.entry_eq h.1
    | opens | saves | restores => exact congrArg (Fs.entry · path) h
  | @acquire location hfree =>
    -- Nobody has a lock now, for there is only one after the step.
    have hnone : a.locks = [] := by
      have honly := (hshared.only (List.mem_cons_self ..)).1
      exact (List.cons.inj honly).2
    refine ⟨hserial.chain, hserial.bound, fun l hl => ?_, nofun⟩
    rw [hnone, List.mem_singleton] at hl
    subst hl
    exact ⟨hserial.free hnone, id⟩
  | work hl hc h =>
    refine hserial.files hbound fun hnone => ?_
    rw [hnone] at hl
    cases hl
  | release => exact hserial.release ha _

/-- **Once a turn has left the name taken, every later one finds it taken.** -/
theorem Serial.taken (h : Serial path a) : a.history.Pairwise fun next last =>
    last.stop.entry path ≠ .absent → next.start.entry path ≠ .absent := by
  have hchain := h.chain
  have hbound := h.bound
  generalize a.history = history at hchain hbound
  induction history with
  | nil => exact .nil
  | cons next rest ih =>
    obtain ⟨hleft, hrest⟩ := List.isChain_cons.mp hchain
    have hpairs := ih hrest fun turn hturn => hbound turn (List.mem_cons_of_mem next hturn)
    refine List.pairwise_cons.mpr ⟨fun turn hturn hne => ?_, hpairs⟩
    cases rest with
    | nil => cases hturn
    | cons last earlier =>
      rw [hleft last rfl]
      rcases List.mem_cons.mp hturn with rfl | hturn
      · exact hne
      · -- The last turn found the name taken, and so left it.
        refine hbound last (List.mem_cons_of_mem next (List.mem_cons_self ..)) ?_
        exact (List.pairwise_cons.mp hpairs).1 turn hturn hne

variable [DecidableEq Hash] {hinj : Function.Injective so.generichash} {s s' : Sessions (store so path)}

theorem step_serial (h : (clients so path hinj).Holds s) (hserial : Serial path s.world)
    (hstep : Sessions.Step c s s') : Serial path s'.world := by
  cases hstep with
  | begin | finish | think => exact hserial
  | call hbusy hop => exact StoreCall.Guar.serial (h.call hbusy hop).1 h.inv hserial
  | leave => exact hserial.release h.inv _

theorem run_serial (h : (clients so path hinj).Holds s) (hserial : Serial path s.world)
    (hrun : Sessions.Run s s') : Serial path s'.world := by
  induction hrun with
  | refl => exact hserial
  | tail hprev hstep ih =>
    obtain ⟨c, hstep⟩ := hstep
    exact step_serial (Verified.holds h hprev) ih hstep

end Serial

/-! ## Answers -/

section Answers

variable {Hash : Type} {so : Sodium Hash} {path : Bytes} {faults : Bool} {P : World → Prop} {c : Nat}
  {R : World → World → Prop} {a b d : World}

/-- The turns that a client had between two worlds. -/
def Turns (c : Nat) (a b : World) (turns : List Section) : Prop :=
  ∃ news, b.history = news ++ a.history ∧ news.filter (fun turn => turn.client == c) = turns

theorem Turns.trans {xs ys : List Section} (h : Turns c a b xs) (h' : Turns c b d ys) :
    Turns c a d (ys ++ xs) := by
  obtain ⟨news, hnews, rfl⟩ := h
  obtain ⟨more, hmore, rfl⟩ := h'
  exact ⟨more ++ news, by rw [hmore, hnews, List.append_assoc], List.filter_append ..⟩

/-- The others have their own turns. -/
theorem Neighbours.turns (hR : Neighbours c R) (h : R a b) : Turns c a b [] := by
  obtain ⟨news, hnews, hothers⟩ := hR.history a b h
  exact ⟨news, hnews, List.filter_eq_nil_iff.mpr fun turn hturn => by simpa using hothers turn hturn⟩

/-- **Work under the lock is one turn**, and no lock is no turn. -/
theorem LockOutcome.turns {α : Type} {refused : PvStatus → α} {Q : Location → Fs → α → Fs → Prop} {r : α}
    (hR : Neighbours c R) (h : LockOutcome faults c R path refused Q a r b) :
    (∃ status, r = refused status ∧ LockResult faults c R path a (.error status) b ∧
      Turns c a b []) ∨
    ∃ turn w, R a w ∧ w.fs = turn.start ∧ Turns c a b [turn] ∧
      Q turn.location turn.start r turn.stop := by
  cases h with
  | refused h => exact .inl ⟨_, rfl, h, hR.turns h.1⟩
  | @done location _ fs _ w₁ _ _ _ _ h₁ _ hQ hafter =>
    obtain ⟨w₂, h₂, -, -, news, hothers, hhistory⟩ := hafter.after
    refine .inr ⟨⟨location, c, w₁.fs, fs⟩, w₁, h₁, rfl, ?_, hQ⟩
    have hturn : Turns c w₁ w₂ [⟨location, c, w₁.fs, fs⟩] := by
      refine ⟨⟨location, c, w₁.fs, fs⟩ :: news, hhistory, ?_⟩
      have hnone : news.filter (fun turn => turn.client == c) = [] :=
        List.filter_eq_nil_iff.mpr fun turn hturn => by simpa using hothers turn hturn
      rw [List.filter_cons_of_pos (by simp), hnone]
    exact ((hR.turns h₁).trans hturn).trans (hR.turns h₂)

/-- What a client may count on while `P` holds in all worlds it sees. -/
def Meanwhile (so : Sodium Hash) (path : Bytes) (c : Nat) (P : World → Prop) (a b : World) : Prop :=
  Alongside so path c a b ∧ (P a → P b)

theorem neighbours_meanwhile (so : Sodium Hash) (path : Bytes) (c : Nat) (P : World → Prop) :
    Neighbours c (Meanwhile so path c P) := by
  have h := neighbours_alongside so path c
  exact
    { refl := fun w => ⟨h.refl w, id⟩
      trans := fun _ _ _ h₁ h₂ => ⟨h.trans _ _ _ h₁.1 h₂.1, fun hP => h₂.2 (h₁.2 hP)⟩
      locks := fun _ _ h₁ => h₁.1.locks
      held := fun _ _ h₁ => h₁.1.held
      history := fun _ _ h₁ => h₁.1.history }

variable [DecidableEq Hash] {hinj : Function.Injective so.generichash} {own : Option (Handle Hash)}
  {call : StoreCall Hash} {r : call.Out} {s s' : Sessions (store so path)}

/-- **From a client's call to its answer**: all worlds satisfy `P`, and calls of the client fail
only if `faults` says so. -/
structure Answers (so : Sodium Hash) (path : Bytes) (faults : Bool) (P : World → Prop) (c : Nat)
    (own : Option (Handle Hash)) (call : StoreCall Hash) (s : Sessions (store so path)) (r : call.Out)
    (s' : Sessions (store so path)) : Prop where
  during : During c own call (World.Step faults c) P s s'
  answered : s'.seat c = .busy own call (.ret r)

/-- A client that is left alone gets an answer. -/
theorem Answers.exists_alone (call : StoreCall Hash) {G : World → World → Prop}
    {Q : call.Out → World → Prop}
    (hwp : (system false c (fun a b => b = a) G).wp (call.program so path) Q s.world)
    (hseat : s.seat c = .idle own) (hoffer : call.Offered own) (hP : ∀ a b, G a b → P a → P b)
    (hp : P s.world) :
    ∃ r s', Answers so path false P c own call s r s' ∧ (∀ j, j ≠ c → s'.seat j = s.seat j) ∧
      Q r s'.world := by
  have hbegin : During (S := store so path) c own call (World.Step false c) P s _ :=
    .begin hseat hoffer hp
  obtain ⟨r, s', hduring, hret, hothers, hq⟩ := hbegin.exists_answer (T := system false c (fun a b => b = a) G)
    (Sessions.seat_update ..) (fun _ => rfl) (show ¬false = true by decide) (World.Step.answers false c)
    (fun _ _ _ _ h => ⟨h.mayFail, h⟩) hP hp hwp
  exact ⟨r, s', ⟨hduring, hret⟩, fun j hne => (hothers j hne).trans (Function.update_of_ne hne ..), hq⟩

/-- What is known about the client when it makes the call. -/
theorem Answers.known (hholds : (clients so path hinj).Holds s)
    (h : Answers so path faults P c own call s r s') :
    Known so path c own s.world ∧ call.Offered own := by
  obtain ⟨hseat, hoffer⟩ := h.during.idle_start
  have hknown := hholds.seats c
  rw [hseat] at hknown
  exact ⟨hknown, hoffer⟩

/-- The answer is as the call was verified. -/
theorem Answers.verified {Q : call.Out → World → Prop}
    (hholds : (clients so path hinj).Holds s) (h : Answers so path faults P c own call s r s')
    (hQ : ∀ r a b, Q r a → Meanwhile so path c P a b → Q r b)
    (hwp : (system faults c (Meanwhile so path c P) (call.Acts so path c)).wp (call.program so path) Q
      s.world) : Q r s'.world := by
  have hR := neighbours_meanwhile so path c P
  exact h.during.answer (T := system faults c (Meanwhile so path c P) (call.Acts so path c)) hholds
    (fun _ _ _ _ _ hmay => hmay) (fun a b hrely _ hP => ⟨hrely, fun _ => hP⟩) hR.refl hR.trans hQ hwp
    h.answered

end Answers

/-! ## Saves -/

section Saves

variable {Hash : Type} [DecidableEq Hash] {so : Sodium Hash} {path : Bytes} {faults : Bool}
  {P : World → Prop} {c : Nat} {hinj : Function.Injective so.generichash} {own : Option (Handle Hash)}
  {host : Host} {env : SaveEnv} {vault : Vault Hash} {header : FileHeader} {retention : Nat}
  {r : PvStatus × Handle Hash} {s s' : Sessions (store so path)}

/-- The base of a handle is not what the path shows. -/
def Stale (so : Sodium Hash) (path : Bytes) (vault : Vault Hash) (fs : Fs) : Prop :=
  ∀ data, fs.entry path = .holds data → so.generichash data ≠ vault.sourceHash

/-- What a save that committed did in its turn: it replaced the snapshot that the handle was based
on by what the vault is sealed into. The handle is based on that now, unless it could not be
verified. -/
def SavedOver (so : Sodium Hash) (path : Bytes) (env : SaveEnv) (vault : Vault Hash) (header : FileHeader)
    (r : PvStatus × Handle Hash) (turn : Section) : Prop :=
  ∃ old new, turn.start.entry path = .holds old ∧ so.generichash old = vault.sourceHash ∧
    turn.stop.entry path = .holds new ∧ SealsInto so env vault header new ∧
    (r.2.1.sourceHash = so.generichash new ∨
      r.1 = .errDurability ∧ r.2.1.sourceHash = vault.sourceHash)

omit [DecidableEq Hash] in
theorem SavesBeside.savedOver {turn : Section}
    (h : SavesBeside so host faults env vault header turn.location turn.start r turn.stop)
    (hleads : turn.start.LeadsTo path turn.location) (hcommitted : r.1.Committed) :
    SavedOver so path env vault header r turn := by
  have hdone := h.result.committed hcommitted
  obtain ⟨old, hold, ⟨-, hhash⟩, -⟩ := hdone.replaced rfl
  obtain ⟨ciphertext, hseal⟩ := hdone.sealed_eq
  have hat' := hleads.at.later h.result.steps.evolves
  refine ⟨old, _, hleads.at.entry_eq.trans hold, hhash, hat'.entry_eq.trans hdone.active,
    sealsInto_content (congrArg Prod.fst hseal), ?_⟩
  rcases hdone.vault_eq with hvault | ⟨hstatus, hvault⟩
  · exact .inl (by rw [hvault])
  · exact .inr ⟨hstatus, by rw [hvault]; rfl⟩

/-- A save that is kept out: it did not commit, its turns changed no file, and if none of its
calls failed it said that the vault is locked. -/
structure KeptOut (path : Bytes) (faults : Bool) (vault : Vault Hash) (header : FileHeader)
    (r : PvStatus × Handle Hash) (turns : List Section) : Prop where
  refused : ¬r.1.Committed
  handle_eq : r.2 = (vault, header)
  files_eq : ∀ turn ∈ turns, turn.stop = turn.start
  locked : faults = false → vault.generation.toNat ≠ 2 ^ 64 - 1 →
    (∀ parent name, splitParentAndName path = .ok (parent, name) → name.length + 13 < pathMax) →
    r.1 = .errLocked

/-- A save that there is nothing to do for, or that may keep no backup, makes no system call. -/
theorem program_spared (hspared : vault.dirty = false ∨ retention = 0) :
    StoreCall.program so path (.saves host env vault header retention) =
      .ret (if vault.dirty = false then .ok else .errUsage, vault, header) := by
  rw [StoreCall.program, pvStoreSave, if_pos hspared]
  rfl

variable (hholds : (clients so path hinj).Holds s)
  (h : Answers so path faults P c own (.saves host env vault header retention) s r s')
include hholds h

/-- So it has no turn. -/
theorem Answers.spared (hspared : vault.dirty = false ∨ retention = 0) :
    r = (if vault.dirty = false then .ok else .errUsage, vault, header) ∧
      Turns c s.world s'.world [] := by
  have hR := neighbours_meanwhile so path c P
  refine h.verified (Q := fun (r : PvStatus × Handle Hash) w =>
    r = (if vault.dirty = false then .ok else .errUsage, vault, header) ∧ Turns c s.world w []) hholds
    (fun r a b hq hrely => ⟨hq.1, hq.2.trans (hR.turns hrely)⟩) ?_
  rw [program_spared hspared]
  exact ⟨rfl, hR.turns (hR.refl _)⟩

variable (hdirty : vault.dirty = true) (hretention : retention ≠ 0)
include hdirty hretention

/-- What comes of a save, next to the others. -/
theorem Answers.saves :
    HandleOk so path (vault, header) s.world.fs ∧
    LockOutcome faults c (Meanwhile so path c P) path (fun status => (status, vault, header))
      (fun location fs r fs' => fs.LeadsTo path location ∧
        SavesBeside so host faults env vault header location fs r fs') s.world r s'.world := by
  obtain ⟨hknown, hoffer⟩ := h.known hholds
  obtain rfl : own = some (vault, header) := hoffer
  have hhandle := hknown.handle _ rfl
  have hR := neighbours_meanwhile so path c P
  refine ⟨hhandle, h.verified hholds (fun r a b hout hrely => hout.later hR hrely) ?_⟩
  exact saves_beside hinj hR (fun _ _ hrely => hrely.1.drift) hknown.idle hknown.shared.ordered
    hhandle.path_eq hhandle.usable hdirty hretention

/-- **A save that committed had one turn, and replaced exactly its base.** One that did not commit
left the vault in memory and the path as they were. -/
theorem Answers.saved :
    (r.1.Committed → ∃ turn, Turns c s.world s'.world [turn] ∧
      SavedOver so path env vault header r turn) ∧
    (¬r.1.Committed → r.2.1 = vault ∧ ∃ turns, Turns c s.world s'.world turns ∧
      ∀ turn ∈ turns, turn.stop.entry path = turn.start.entry path) := by
  have hR := neighbours_meanwhile so path c P
  obtain ⟨-, hout⟩ := h.saves hholds hdirty hretention
  have hord := (h.known hholds).1.shared.ordered
  rcases hout.turns hR with ⟨status, rfl, hlock, hnone⟩ | ⟨turn, w, hw, hstart, hturn, hleads, hwork⟩
  · exact ⟨fun hcommitted => absurd hcommitted hlock.2.1, fun _ => ⟨rfl, [], hnone, nofun⟩⟩
  refine ⟨fun hcommitted => ⟨turn, hturn, hwork.savedOver hleads hcommitted⟩, fun hbad => ?_⟩
  obtain ⟨hvault, hprepared⟩ := hwork.result.refused hbad
  refine ⟨hvault, [turn], hturn, ?_⟩
  rintro _ (_ | ⟨_, ⟨⟩⟩)
  -- What prepares the commit does not touch the name.
  have hat' := hleads.at.later hprepared.steps.evolves
  have htidy := (Fs.Drift.ordered hw.1.drift hord).tidy turn.location (hstart ▸ hleads.at)
  rw [hat'.entry_eq, hleads.at.entry_eq]
  rw [hstart] at htidy
  exact (hprepared.steps.evolves.slot_eq (htidy _ _ not_scratch_active) hprepared.lookup_eq).2

/-- **A save that does not find its base when it gets the lock**, or gets none, **is kept out.**
It gets the lock at a moment of the call. -/
theorem Answers.turned :
    ∃ turns, Turns c s.world s'.world turns ∧ (∀ turn ∈ turns, ∃ w, P w ∧ w.fs = turn.start) ∧
      ((∀ turn ∈ turns, Stale so path vault turn.start) →
        KeptOut path faults vault header r turns) := by
  have hR := neighbours_meanwhile so path c P
  obtain ⟨hhandle, hout⟩ := h.saves hholds hdirty hretention
  have hord := (h.known hholds).1.shared.ordered
  rcases hout.turns hR with ⟨status, rfl, hlock, hnone⟩ | ⟨turn, w, hw, hstart, hturn, hleads, hwork⟩
  · refine ⟨[], hnone, nofun, fun _ => ⟨hlock.2.1, rfl, nofun, fun hfaults _ hshort => ?_⟩⟩
    obtain ⟨location, -, hleads, -⟩ := hhandle.rests
    obtain ⟨parent, hsplit, -⟩ := hleads.at
    exact (hlock.2.2 hfaults location (hshort _ _ hsplit) fun w₁ h₁ =>
      Fs.Drift.leadsTo h₁.1.drift hleads).1
  have hone : ∀ {Q : Section → Prop}, Q turn → ∀ turn' ∈ [turn], Q turn' := fun hq =>
    List.forall_mem_singleton.mpr hq
  refine ⟨[turn], hturn, hone ⟨w, hw.2 h.during.holds_start, hstart⟩, fun hall => ?_⟩
  have hstale := hall turn (List.mem_singleton_self turn)
  have hrests := hhandle.rests.later hw.1.drift hord
  rw [hstart] at hrests
  have haway := hwork.turnedAway fun data hactive => hstale data (hleads.at.entry_eq.trans hactive)
  refine ⟨haway.refused, haway.handle_eq, hone haway.files_eq, fun hfaults hmax _ => ?_⟩
  obtain ⟨current, hshows, hmode, -⟩ := hrests.turned hleads.at hstale
  exact haway.locked hfaults hmax (.inr ⟨current, hshows, hmode⟩)

end Saves

/-! ## Creations and restores -/

section Others

variable {Hash : Type} {so : Sodium Hash} {path : Bytes} {faults : Bool} {P : World → Prop} {c : Nat}
  {R : World → World → Prop} {w w₁ w₂ : World} {a b : Fs} {location : Location}
variable {outside : Fs → Fs → Prop} {env : CreateEnv} {password : Bytes}
  {recoveryKey : Block pvRecoveryKeyBytes} {r : PvStatus × Option (Vault Hash)}

/-- A name that is not bound anew shows what it showed. -/
theorem Fs.LeadsTo.entry_kept (hleads : a.LeadsTo path location) (ha : a.Ordered path)
    (hev : Fs.Evolves a b)
    (hlook : b.lookup location.dir location.name = a.lookup location.dir location.name) :
    b.entry path = a.entry path := by
  rw [(hleads.at.later hev).entry_eq, hleads.at.entry_eq]
  exact (hev.slot_eq (ha.tidy location hleads.at _ _ not_scratch_active) hlook).2

theorem Fs.Drift.entry_bound (h : Fs.Drift so path a b) (ha : a.Ordered path)
    (hbound : a.entry path ≠ .absent) : b.entry path ≠ .absent := by
  induction h with
  | refl => exact hbound
  | tail hprev hstep ih => exact hstep.entry_bound (Fs.Drift.ordered hprev ha) ih

/-- Without the lock a client has no turn. -/
theorem Roams.turns (hR : Neighbours c R) (h : Roams R outside w w₁) :
    Turns c w w₁ [] := by
  induction h with
  | refl => exact hR.turns (hR.refl w)
  | tail _ hstep ih =>
    rcases hstep with hrely | ⟨fs', -, rfl⟩
    · exact ih.trans (hR.turns hrely)
    · exact ih

theorem Roams.drift (h : Roams R outside w w₁)
    (hdrift : ∀ a b, R a b → Fs.Drift so path a.fs b.fs)
    (houtside : ∀ a b, outside a b → Fs.Moves so path a b) : Fs.Drift so path w.fs w₁.fs := by
  induction h with
  | refl => exact .refl
  | tail _ hstep ih =>
    rcases hstep with hrely | ⟨fs', hout, rfl⟩
    · exact ih.trans (hdrift _ _ hrely)
    · exact ih.tail (houtside _ _ hout)

theorem CreatesBeside.later (hR : Neighbours c R)
    (h : CreatesBeside so path faults c R env password recoveryKey w r w₁) (hrely : R w₁ w₂) :
    CreatesBeside so path faults c R env password recoveryKey w r w₂ := by
  obtain ⟨w₀, hroams, ⟨rfl, hbad⟩ | hout⟩ := h
  · exact ⟨w₂, hroams.tail (.inl hrely), .inl ⟨rfl, hbad⟩⟩
  · exact ⟨w₀, hroams, .inr (hout.later hR hrely)⟩

variable [DecidableEq Hash] {hinj : Function.Injective so.generichash} {own : Option (Handle Hash)}
  {host : Host} {s s' : Sessions (store so path)}

/-- **A creation that committed found the name free**, also when the call was made, and had one turn
in which it took it. One that did not commit left the path as it was. -/
theorem Answers.created (hholds : (clients so path hinj).Holds s)
    (h : Answers so path faults P c own (.creates host env password recoveryKey) s r s') :
    (r.1.Committed → s.world.fs.entry path = .absent ∧ ∃ turn new,
      Turns c s.world s'.world [turn] ∧ turn.start.entry path = .absent ∧
      turn.stop.entry path = .holds new ∧ CreatesSnapshot so env path password recoveryKey new) ∧
    (¬r.1.Committed → ∃ turns, Turns c s.world s'.world turns ∧
      ∀ turn ∈ turns, turn.stop.entry path = turn.start.entry path) := by
  have hR := neighbours_meanwhile so path c P
  have hdrift : ∀ a b, Meanwhile so path c P a b → Fs.Drift so path a.fs b.fs := fun _ _ h => h.1.drift
  obtain ⟨hknown, -⟩ := h.known hholds
  have hord := hknown.shared.ordered
  obtain ⟨w₁, hroams, hout⟩ := h.verified hholds (fun r a b hout hrely => hout.later hR hrely)
    (creates_beside hinj hR hdrift hknown.idle hord)
  have hnone := hroams.turns hR
  have hway := hroams.drift hdrift fun _ _ h => .grows h.1 h.2
  rcases hout with ⟨rfl, hbad⟩ | hout
  · exact ⟨fun hcommitted => absurd hcommitted hbad, fun _ => ⟨[], hnone, nofun⟩⟩
  rcases hout.turns hR with ⟨status, rfl, hlock, hnone'⟩ | ⟨turn, w, hw, hstart, hturn, hleads, hwork⟩
  · exact ⟨fun hcommitted => absurd hcommitted hlock.2.1, fun _ => ⟨[], hnone.trans hnone', nofun⟩⟩
  have hway' : Fs.Drift so path s.world.fs turn.start := hstart ▸ hway.trans hw.1.drift
  have hord' := Fs.Drift.ordered hway' hord
  refine ⟨fun hcommitted => ?_, fun hbad => ⟨[turn], hnone.trans hturn, ?_⟩⟩
  · obtain ⟨vault, header, saved, header', hdrawn, -, hdone⟩ := hwork.committed hcommitted
    obtain ⟨ciphertext, hseal⟩ := hdone.sealed_eq
    have hfree : turn.start.entry path = .absent := by
      rw [hleads.at.entry_eq, Fs.slot, show turn.start.lookup turn.location.dir turn.location.name = none
        from hdone.created rfl]
    refine ⟨?_, turn, _, hnone.trans hturn, hfree, ?_, vault, header, hdrawn,
      sealsInto_content (congrArg Prod.fst hseal)⟩
    · by_contra hbound
      exact Fs.Drift.entry_bound hway' hord hbound hfree
    · have hev : Fs.Evolves turn.start turn.stop := by
        rcases hwork.effect with heq | ⟨_, _, -, hsteps⟩
        · rw [heq]
          exact Fs.Evolves.refl _
        · exact hsteps.evolves
      exact (hleads.at.later hev).entry_eq.trans hdone.active
  · rintro _ (_ | ⟨_, ⟨⟩⟩)
    rcases hwork.effect with heq | ⟨_, _, -, hsteps⟩
    · rw [heq]
    · exact hleads.entry_kept hord' hsteps.evolves (hwork.refused hbad).2

end Others

/-! ## Opens -/

section Opens

variable {Hash : Type} {so : Sodium Hash} {path : Bytes} {a b fs : Fs} {location : Location} {data : Bytes}

/-- Nothing is more recent than itself. -/
theorem Fs.Recent.ne (h : Fs.Recent location a b data) : b.log ≠ a.log := by
  obtain ⟨e, before, hlog, hbefore, -⟩ := h
  intro heq
  have hle := hlog.length_le
  have hle' := hbefore.length_le
  rw [heq] at hle
  exact absurd (hle.trans hle') (Nat.not_succ_le_self _)

/-- A rename that happened, happened before the last one or is the last one. -/
theorem Fs.Recent.cases {fs₀ : Fs} {e : Event} (h : Fs.Recent location fs₀ b data)
    (hlog : b.log = e :: a.log) : Fs.Recent location fs₀ a data ∨
      (e.dir, e.name) = (location.dir, location.name) ∧ e.data = data := by
  obtain ⟨e', before, hsuffix, hbefore, htarget, hdata⟩ := h
  rw [hlog] at hsuffix
  rcases List.suffix_cons_iff.mp hsuffix with heq | hsuffix
  · obtain ⟨rfl, -⟩ := List.cons.inj heq
    exact .inr ⟨htarget, hdata⟩
  · exact .inl ⟨e', before, hsuffix, hbefore, htarget, hdata⟩

/-- What is renamed to the path is shown there. -/
theorem Fs.Moves.log_cases (h : Fs.Moves so path a b) :
    b.log = a.log ∨ ∃ e place, b.log = e :: a.log ∧ b.At path place ∧
      ((e.dir, e.name) = (place.dir, place.name) → b.entry path = .holds e.data) := by
  cases h with
  | grows _ h =>
    obtain ⟨⟨d, name, hmade⟩, -⟩ := h
    exact .inl hmade.log_eq
  | works hat _ h =>
    refine h.log_active.imp_right ?_
    rintro ⟨e, hlog, hshown⟩
    have hat' := hat.later h.evolves
    exact ⟨e, _, hlog, hat', fun htarget => hat'.entry_eq.trans (hshown htarget)⟩

variable [DecidableEq Hash] {hinj : Function.Injective so.generichash} {c : Nat}
  {s s' : Sessions (store so path)}

/-- A step of a client to the files. -/
theorem step_moves (h : (clients so path hinj).Holds s) (hstep : Sessions.Step c s s') :
    s'.world.fs = s.world.fs ∨ Fs.Moves so path s.world.fs s'.world.fs := by
  cases hstep with
  | begin | finish | think | leave => exact .inl rfl
  | call hbusy hop => exact StoreCall.Guar.moves (h.call hbusy hop).1 h.inv

variable {own : Option (Handle Hash)} {call : StoreCall Hash}
  {may : World → (op : SysOp) → SysRes op → World → Prop} {P : World → Prop}

/-- **What was renamed to the path during a call was shown at a point of the call.** -/
theorem during_shown (hholds : (clients so path hinj).Holds s) (h : During c own call may P s s')
    (hev : Fs.Evolves s'.world.fs fs) (hat : fs.At path location)
    (hrecent : Fs.Recent location s.world.fs s'.world.fs data) :
    ∃ t, During c own call may P s t ∧ Sessions.Run t s' ∧ t.world.fs.entry path = .holds data := by
  -- A step shows what it renames; everything else was there before.
  have hback : ∀ {t t' : Sessions (store so path)} {j : Nat}, During c own call may P s t →
      During c own call may P s t' → Sessions.Step j t t' → Fs.Evolves t'.world.fs fs →
      Fs.Recent location s.world.fs t'.world.fs data →
      (Fs.Evolves t.world.fs fs → Fs.Recent location s.world.fs t.world.fs data →
        ∃ u, During c own call may P s u ∧ Sessions.Run u t ∧ u.world.fs.entry path = .holds data) →
      ∃ u, During c own call may P s u ∧ Sessions.Run u t' ∧ u.world.fs.entry path = .holds data := by
    intro t t' j hprev hnext hstep hev hrecent ih
    have hearlier : Fs.Evolves t.world.fs fs → Fs.Recent location s.world.fs t.world.fs data →
        ∃ u, During c own call may P s u ∧ Sessions.Run u t' ∧
          u.world.fs.entry path = .holds data := fun hev' hrecent' => by
      obtain ⟨u, hu, hrun, hshown⟩ := ih hev' hrecent'
      exact ⟨u, hu, hrun.tail ⟨j, hstep⟩, hshown⟩
    rcases step_moves (Verified.holds hholds hprev.run) hstep with hsame | hmoves
    · rw [hsame] at hev hrecent
      exact hearlier hev hrecent
    have hev' := hmoves.evolves.trans hev
    rcases hmoves.log_cases with hlog | ⟨e, place, hlog, hplace, hshown⟩
    · refine hearlier hev' ?_
      rwa [Fs.Recent, hlog] at hrecent
    · rcases hrecent.cases hlog with hrecent | ⟨htarget, rfl⟩
      · exact hearlier hev' hrecent
      · obtain rfl := (hplace.later hev).unique hat
        exact ⟨t', hnext, .refl, hshown htarget⟩
  induction h with
  | begin => exact absurd rfl hrecent.ne
  | call hprev hseat hstep hmay hP ih =>
    exact hback hprev (.call hprev hseat hstep hmay hP) (.call hseat hstep) hev hrecent ih
  | other hprev hne hstep hP ih => exact hback hprev (.other hprev hne hstep hP) hstep hev hrecent ih

variable {faults : Bool} {host : Host} {env : UnlockEnv} {credential : Bytes} {recovery : Bool}
  {handle : Handle Hash}

/-- **An open reads one snapshot, which was active at a point of the call**, and the handle is
based on it. -/
theorem Answers.opened (hholds : (clients so path hinj).Holds s)
    (h : Answers so path faults P c own (.opens host env credential recovery) s (.ok handle) s') :
    ∃ (disk : DiskFile Hash) (t : Sessions (store so path)),
      During c own (StoreCall.opens host env credential recovery) (World.Step faults c) P s t ∧
      Sessions.Run t s' ∧ t.world.fs.entry path = .holds disk.bytes ∧ disk.Reads so disk.bytes ∧
      openDisk so env path credential recovery disk = .ok handle ∧
      handle.1.sourceHash = so.generichash disk.bytes := by
  have hR := neighbours_meanwhile so path c P
  obtain ⟨hknown, -⟩ := h.known hholds
  have hord := hknown.shared.ordered
  obtain ⟨-, hopens⟩ := h.verified (Q := fun r w' => Meanwhile so path c P s.world w' ∧
      OpensBeside so path env credential recovery s.world.fs r w'.fs) hholds
    (fun r a b hout hrely => ⟨hR.trans _ _ _ hout.1 hrely, fun handle hok => by
      obtain ⟨disk, ⟨hreads, place, fs₁, h₁, h₂, hleads, hentry⟩, hopen⟩ := hout.2 handle hok
      exact ⟨disk, ⟨hreads, place, fs₁, h₁, h₂.trans hrely.1.drift, hleads, hentry⟩, hopen⟩⟩)
    (opens_beside hR (fun _ _ hrely => hrely.1.drift) hord)
  obtain ⟨disk, ⟨hreads, place, fs₁, h₁, h₂, hleads, hentry⟩, hopen⟩ := hopens handle rfl
  obtain ⟨vault, header⟩ := handle
  obtain ⟨rfl, vmk, key, body, payload, start, hfrom⟩ := openDisk_opened hopen
  have hhash : vault.sourceHash = so.generichash disk.bytes := hfrom.hash_eq.trans hreads.hash_eq
  rcases Fs.Drift.entry_cases h₁ hord hleads.at with hsame | ⟨data, hholds', hrecent⟩
  · -- It was there when the call was made.
    obtain ⟨hseat, hoffer⟩ := h.during.idle_start
    exact ⟨disk, _, .begin hseat hoffer h.during.holds_start, h.during.run_begin, hsame.symm.trans hentry,
      hreads, hopen, hhash⟩
  · obtain rfl : data = disk.bytes := Slot.holds.inj (hholds'.symm.trans hentry)
    obtain ⟨t, hduring, hrun, hshown⟩ := during_shown hholds h.during (Fs.Evolves.refl _)
      (hleads.at.later (Fs.Drift.evolves h₂)) (hrecent.later (Fs.Drift.evolves h₂))
    exact ⟨disk, t, hduring, hrun, hshown, hreads, hopen, hhash⟩

end Opens

/-! ## All clients -/

section Updates

variable {Hash : Type} [DecidableEq Hash] {so : Sodium Hash} {path : Bytes}
  {start s s' : Sessions (store so path)}

/-- **A vault path as its clients find it**: nobody has the lock, every file is finished, and a
handle that a client has is based on the active snapshot. -/
structure Begins (so : Sodium Hash) (path : Bytes) (s : Sessions (store so path)) : Prop where
  unlocked : s.world.locks = []
  unused : s.world.history = []
  finished : s.world.fs.Finished
  idle : ∀ c, ∃ own, s.seat c = .idle own ∧ ∀ handle : Handle Hash, own = some handle →
    handle.1.path = path ∧ handle.2.Usable ∧ ∃ location data, s.world.fs.LeadsTo path location ∧
      s.world.fs.entry path = .holds data ∧ so.generichash data = handle.1.sourceHash

theorem Begins.holds (h : Begins so path s) (hinj : Function.Injective so.generichash) :
    (clients so path hinj).Holds s := by
  have hshared : Shared path s.world := ⟨h.finished.ordered, .inl h.unlocked⟩
  refine ⟨hshared, fun c => ?_⟩
  obtain ⟨own, hseat, hhandle⟩ := h.idle c
  rw [hseat]
  refine ⟨hshared, World.idle_of_locks (by rw [h.unlocked]; exact nofun), fun handle hown => ?_⟩
  obtain ⟨hpath, husable, location, data, hleads, hentry, hhash⟩ := hhandle handle hown
  exact ⟨hpath, husable, location, data, hleads, hhash, .inl hentry⟩

omit [DecidableEq Hash] in
theorem serial_of_unused {w : World} (hlocks : w.locks = []) (hhistory : w.history = []) :
    Serial path w where
  chain := by rw [hhistory]; exact .nil
  bound := by rw [hhistory]; exact nofun
  held := by rw [hlocks]; exact nofun
  free _ := by rw [hhistory]; exact nofun

/-- The turns in which the name was taken. -/
def takings (path : Bytes) (history : List Section) : List Section :=
  history.filter fun turn => turn.start.entry path = .absent ∧ turn.stop.entry path ≠ .absent

theorem Serial.takings_le {w : World} (h : Serial path w) : (takings path w.history).length ≤ 1 := by
  have hpairs := h.taken.filter fun turn => turn.start.entry path = .absent ∧
    turn.stop.entry path ≠ .absent
  have hmem : ∀ turn ∈ takings path w.history, turn.start.entry path = .absent ∧
      turn.stop.entry path ≠ .absent := fun turn hturn => by simpa using (List.mem_filter.mp hturn).2
  rw [← takings] at hpairs
  generalize takings path w.history = turns at hpairs hmem
  match turns with
  | [] | [_] => simp
  | next :: last :: rest =>
    have hlast := (hmem last (by simp)).2
    have hnext := (hmem next (by simp)).1
    exact absurd hnext ((List.pairwise_cons.mp hpairs).1 last (by simp) hlast)

/-- The history only grows. -/
theorem step_history {c : Nat} (hstep : Sessions.Step c s s') : s.world.history <:+ s'.world.history := by
  cases hstep with
  | begin | finish | think => exact List.suffix_refl _
  | leave => exact List.suffix_append _ _
  | call _ hop =>
    cases hop with
    | unlock | closeLock => exact List.suffix_append _ _
    | _ => exact List.suffix_refl _

theorem run_history (hrun : Sessions.Run s s') : s.world.history <:+ s'.world.history := by
  induction hrun with
  | refl => exact List.suffix_refl _
  | tail _ hstep ih =>
    obtain ⟨c, hstep⟩ := hstep
    exact ih.trans (step_history hstep)

end Updates

section NoLostUpdate

variable {Hash : Type} [DecidableEq Hash] {so : Sodium Hash} {path : Bytes}
  {start s s' : Sessions (store so path)}

/-- From the call of a creation to its answer, when it committed. -/
def CreatedBetween (so : Sodium Hash) (path : Bytes) (c : Nat) (s s' : Sessions (store so path)) : Prop :=
  ∃ faults own host env password recoveryKey r,
    Answers so path faults (fun _ => True) c own (.creates host env password recoveryKey) s r s' ∧
      r.1.Committed

/-- **No update is lost**, at a point of a run of any number of clients. -/
structure NoLostUpdate (so : Sodium Hash) (path : Bytes) (s : Sessions (store so path)) : Prop where
  /-- an operation of a save replaces only a snapshot with the hash of its handle, one of a creation
  only takes a free name, one of a restore installs what was asked for, and nothing else changes
  what the path shows -/
  commits : ∀ {c : Nat} {s' : Sessions (store so path)}, Sessions.Step c s s' →
    s'.world.fs.entry path = s.world.fs.entry path ∨
      ∃ (own : Option (Handle Hash)) (call : StoreCall Hash) (rest : SysM call.Out),
        s.seat c = .busy own call rest ∧
          call.Commits so path (s.world.fs.entry path) (s'.world.fs.entry path)
  /-- every turn under the lock found what the one before it left -/
  serial : s.world.history.IsChain fun next last => next.start.entry path = last.stop.entry path
  /-- a save that committed replaced in its one turn exactly the snapshot it was based on; one that
  did not left the path and the handle -/
  saved : ∀ {faults : Bool} {c : Nat} {own : Option (Handle Hash)} {host : Host} {env : SaveEnv}
      {vault : Vault Hash} {header : FileHeader} {retention : Nat} {r : PvStatus × Handle Hash}
      {s' : Sessions (store so path)},
    Answers so path faults (fun _ => True) c own (.saves host env vault header retention) s r s' →
    vault.dirty = true → retention ≠ 0 →
    (r.1.Committed → ∃ turn, Turns c s.world s'.world [turn] ∧
      SavedOver so path env vault header r turn) ∧
    (¬r.1.Committed → r.2.1 = vault ∧ ∃ turns, Turns c s.world s'.world turns ∧
      ∀ turn ∈ turns, turn.stop.entry path = turn.start.entry path)
  /-- a save that does not find its base active when its turn begins, at a moment of the call, does
  not commit and changes no file; if none of its calls fails, it says that the vault is locked, as it
  does when it has no turn -/
  turned : ∀ {faults : Bool} {P : World → Prop} {c : Nat} {own : Option (Handle Hash)} {host : Host}
      {env : SaveEnv} {vault : Vault Hash} {header : FileHeader} {retention : Nat}
      {r : PvStatus × Handle Hash} {s' : Sessions (store so path)},
    Answers so path faults P c own (.saves host env vault header retention) s r s' →
    vault.dirty = true → retention ≠ 0 →
    ∃ turns, Turns c s.world s'.world turns ∧ (∀ turn ∈ turns, ∃ w, P w ∧ w.fs = turn.start) ∧
      ((∀ turn ∈ turns, Stale so path vault turn.start) →
        KeptOut path faults vault header r turns)
  /-- a save of an unchanged handle makes no system call and says that all is well, as one that may
  keep no backup says that it was misused -/
  spared : ∀ {faults : Bool} {c : Nat} {own : Option (Handle Hash)} {host : Host} {env : SaveEnv}
      {vault : Vault Hash} {header : FileHeader} {retention : Nat} {r : PvStatus × Handle Hash}
      {s' : Sessions (store so path)},
    Answers so path faults (fun _ => True) c own (.saves host env vault header retention) s r s' →
    vault.dirty = false ∨ retention = 0 →
    StoreCall.program so path (.saves host env vault header retention) = .ret r ∧
      r = (if vault.dirty = false then .ok else .errUsage, vault, header) ∧
      Turns c s.world s'.world []
  /-- a creation that committed found the name free and took it in its one turn -/
  created : ∀ {faults : Bool} {c : Nat} {own : Option (Handle Hash)} {host : Host} {env : CreateEnv}
      {password : Bytes} {recoveryKey : Block pvRecoveryKeyBytes} {r : PvStatus × Option (Vault Hash)}
      {s' : Sessions (store so path)},
    Answers so path faults (fun _ => True) c own (.creates host env password recoveryKey) s r s' →
    r.1.Committed → s.world.fs.entry path = .absent ∧ ∃ turn new,
      Turns c s.world s'.world [turn] ∧ turn.start.entry path = .absent ∧
      turn.stop.entry path = .holds new ∧ CreatesSnapshot so env path password recoveryKey new
  /-- the name is taken in one turn at most -/
  taken : (takings path s.world.history).length ≤ 1
  /-- of the creations that are made from here on, at most one commits: two are neither of different
  clients nor one after the other -/
  once : ∀ {c d : Nat} {s₁ s₂ t₁ t₂ u : Sessions (store so path)}, Sessions.Run s s₁ →
    CreatedBetween so path c s₁ s₂ → Sessions.Run s t₁ → CreatedBetween so path d t₁ t₂ →
    Sessions.Run s₂ u → Sessions.Run t₂ u → c = d ∧ ¬Sessions.Run s₂ t₁
  /-- an open reads one whole snapshot, which the path showed at a point of the call, and the handle
  is based on it -/
  opened : ∀ {faults : Bool} {c : Nat} {own : Option (Handle Hash)} {host : Host} {env : UnlockEnv}
      {credential : Bytes} {recovery : Bool} {handle : Handle Hash} {s' : Sessions (store so path)},
    Answers so path faults (fun _ => True) c own (.opens host env credential recovery) s (.ok handle) s' →
    ∃ (disk : DiskFile Hash) (t : Sessions (store so path)),
      During c own (StoreCall.opens host env credential recovery) (World.Step faults c) (fun _ => True)
        s t ∧
      Sessions.Run t s' ∧ t.world.fs.entry path = .holds disk.bytes ∧ disk.Reads so disk.bytes ∧
      openDisk so env path credential recovery disk = .ok handle ∧
      handle.1.sourceHash = so.generichash disk.bytes

/-- A creation that committed took the name in a turn of its own. -/
theorem CreatedBetween.taking {c : Nat} {hinj : Function.Injective so.generichash}
    (h : CreatedBetween so path c s s') (hholds : (clients so path hinj).Holds s) :
    ∃ turn news, turn.client = c ∧ s'.world.history = news ++ s.world.history ∧
      turn ∈ takings path news := by
  obtain ⟨faults, own, host, env, password, recoveryKey, r, hanswers, hcommitted⟩ := h
  obtain ⟨-, turn, new, ⟨news, hnews, hfilter⟩, hstart, hstop, -⟩ :=
    (hanswers.created hholds).1 hcommitted
  obtain ⟨hmem, hclient⟩ := List.mem_filter.mp (hfilter ▸ List.mem_singleton_self turn)
  exact ⟨turn, news, beq_iff_eq.mp hclient, hnews,
    List.mem_filter.mpr ⟨hmem, by simp [hstart, hstop]⟩⟩

/-- Two creations that committed are the same one. -/
theorem created_once {hinj : Function.Injective so.generichash} {c d : Nat}
    {s₁ s₂ t₁ t₂ u : Sessions (store so path)} (hholds : (clients so path hinj).Holds s)
    (hserial : Serial path s.world) (hs : Sessions.Run s s₁) (hc : CreatedBetween so path c s₁ s₂)
    (ht : Sessions.Run s t₁) (hd : CreatedBetween so path d t₁ t₂) (hsu : Sessions.Run s₂ u)
    (htu : Sessions.Run t₂ u) : c = d ∧ ¬Sessions.Run s₂ t₁ := by
  obtain ⟨turn, news, hclient, hnews, hturn⟩ := hc.taking (Verified.holds hholds hs)
  obtain ⟨turn', news', hclient', hnews', hturn'⟩ := hd.taking (Verified.holds hholds ht)
  have hduring : ∀ {e : Nat} {a b : Sessions (store so path)}, CreatedBetween so path e a b →
      Sessions.Run a b := by
    rintro e a b ⟨_, _, _, _, _, _, _, hanswers, -⟩
    exact hanswers.during.run
  have hserial' : ∀ {x}, Sessions.Run s x → (takings path x.world.history).length ≤ 1 :=
    fun hrun => (run_serial hholds hserial hrun).takings_le
  constructor
  · -- Both turns are in the history in the end, and only one of them can take the name.
    have hmem : turn ∈ takings path u.world.history :=
      ((List.sublist_append_left ..).trans (hnews ▸ (run_history hsu).sublist)).filter _ |>.subset hturn
    have hmem' : turn' ∈ takings path u.world.history :=
      ((List.sublist_append_left ..).trans (hnews' ▸ (run_history htu).sublist)).filter _ |>.subset hturn'
    have hone := hserial' ((hs.trans (hduring hc)).trans hsu)
    have heq : turn = turn' := by
      match hturns : takings path u.world.history with
      | [] => rw [hturns] at hmem; cases hmem
      | [x] =>
        rw [hturns, List.mem_singleton] at hmem hmem'
        rw [hmem, hmem']
      | _ :: _ :: _ => rw [hturns] at hone; simp at hone
    rw [← hclient, ← hclient', heq]
  · -- One after the other, they would have taken the name twice.
    intro hafter
    have hmem : turn ∈ takings path t₁.world.history :=
      ((List.sublist_append_left ..).trans (hnews ▸ (run_history hafter).sublist)).filter _ |>.subset
        hturn
    have hone := hserial' (ht.trans (hduring hd))
    rw [hnews', takings, List.filter_append, List.length_append] at hone
    have hpos := List.length_pos_of_mem hturn'
    have hpos' := List.length_pos_of_mem hmem
    rw [takings] at hpos hpos'
    omega

/-- **No update is lost between the clients of a vault**, whatever they do and in whatever order. -/
theorem no_update_lost (hinj : Function.Injective so.generichash) (hbegins : Begins so path start)
    (hrun : Sessions.Run start s) : NoLostUpdate so path s := by
  have hholds := Verified.holds (hbegins.holds hinj) hrun
  have hserial := run_serial (hbegins.holds hinj)
    (serial_of_unused hbegins.unlocked hbegins.unused) hrun
  exact
    { commits := fun hstep => step_commits hholds hstep
      serial := hserial.chain
      saved := fun h => h.saved hholds
      turned := fun h => h.turned hholds
      spared := fun h hspared =>
        ⟨(h.spared hholds hspared).1 ▸ program_spared hspared, h.spared hholds hspared⟩
      created := fun h => (h.created hholds).1
      taken := hserial.takings_le
      once := fun hs hc ht hd hsu htu => created_once hholds hserial hs hc ht hd hsu htu
      opened := fun h => h.opened hholds }

end NoLostUpdate

/-! ## Two clients -/

/-- Two clients opened the same snapshot; the first one has changed it. -/
def twoHandles (dirty : Bool) : Nat → Option (Handle Bytes)
  | 0 => some (emptyHandle 1 0, backupHeader)
  | 1 => some ({ emptyHandle 1 0 with dirty := dirty }, backupHeader)
  | _ => none

def twoClients (dirty : Bool) : Sessions (store Sodium.toy vaultPath) where
  world := ⟨onlyVault 1 0, [], []⟩
  seat c := .idle (twoHandles dirty c)

theorem twoClients_begins (dirty : Bool) : Begins Sodium.toy vaultPath (twoClients dirty) where
  unlocked := rfl
  unused := rfl
  finished := onlyVault_finished 1 0
  idle c := by
    have hbase : ∃ location data, (onlyVault 1 0).LeadsTo vaultPath location ∧
        (onlyVault 1 0).entry vaultPath = .holds data ∧
        Sodium.toy.generichash data = (emptyHandle 1 0).sourceHash :=
      ⟨vaultPlace, _, onlyVault_leadsTo 1 0, rfl, rfl⟩
    refine ⟨_, rfl, fun handle hown => ?_⟩
    match c with
    | 0 | 1 =>
      cases hown
      exact ⟨rfl, backupHeader_usable, hbase⟩
    | _ + 2 => cases hown

/-- The first one saves. -/
theorem twoClients_saved (dirty : Bool) : ∃ s, Sessions.Run (twoClients dirty) s ∧
    s.world.fs.entry vaultPath = .holds (sealedBytes (emptySnapshot 2 5)) ∧
    s.seat 1 = .idle (some ({ emptyHandle 1 0 with dirty := dirty }, backupHeader)) := by
  obtain ⟨r, w', hrun, hok⟩ := emptyHandle_saved 1 0 5 (by decide) (by decide) (by decide)
  have hlaw := pvStoreSave_law (c := 0) (w := ⟨onlyVault 1 0, [], []⟩) Sodium.toy_injective
    plainHost rfl (onlyVault_finished 1 0) rfl Nat.one_ne_zero hrun
  obtain ⟨-, replaced, ciphertext, -, hseal, hentry, -⟩ := hlaw.committed (.inl hok)
  have hbytes : serialized r.2.2 ++ ciphertext = sealedBytes (emptySnapshot 2 5) := by
    rw [show emptySnapshot 2 5 = _ from (sealVault_emptyHandle 1 0 5 (by decide)).symm.trans hseal]
    rfl
  have hbegin : During (S := store Sodium.toy vaultPath) 0 (some (emptyHandle 1 0, backupHeader))
      (StoreCall.saves plainHost (readyEnv 5) (emptyHandle 1 0) backupHeader 1)
      (World.Step true 0) (fun _ => True) (twoClients dirty) _ := .begin rfl rfl trivial
  obtain ⟨s, hs, hworld, -, hothers⟩ := hbegin.follow (Sessions.seat_update ..) rfl hrun
    (fun _ _ h => h) (fun _ _ _ _ h => ⟨h, h⟩) fun _ => trivial
  refine ⟨s, hs.run, ?_, ?_⟩
  · rw [hworld, ← hbytes]
    exact hentry
  · exact (hothers 1 Nat.one_ne_zero).trans rfl

theorem emptySnapshot_saved_ne : sealedBytes (emptySnapshot 2 5) ≠ sealedBytes (emptySnapshot 1 0) := by
  decide +kernel

/-- After one of two clients has saved, the other one's base is not active. -/
theorem no_update_lost_two_clients : ∃ s : Sessions (store Sodium.toy vaultPath),
    Sessions.Run (twoClients true) s ∧ Stale Sodium.toy vaultPath (emptyHandle 1 0) s.world.fs ∧
      s.seat 1 = .idle (some (emptyHandle 1 0, backupHeader)) ∧
      NoLostUpdate Sodium.toy vaultPath s := by
  obtain ⟨s, hrun, hentry, hseat⟩ := twoClients_saved true
  refine ⟨s, hrun, fun data hholds => ?_, hseat,
    no_update_lost Sodium.toy_injective (twoClients_begins true) hrun⟩
  obtain rfl : sealedBytes (emptySnapshot 2 5) = data := Slot.holds.inj (hentry.symm.trans hholds)
  exact emptySnapshot_saved_ne

/-- **A save of a handle that has no changes says that all is well**, also when its base is not
active: `pv_store_save` looks at no file then. -/
theorem unchanged_save_ignores_base : ∃ s s' : Sessions (store Sodium.toy vaultPath),
    Begins Sodium.toy vaultPath (twoClients false) ∧ Sessions.Run (twoClients false) s ∧
    Answers Sodium.toy vaultPath false (fun w => Stale Sodium.toy vaultPath (emptyHandle 1 0) w.fs) 1
      (some ({ emptyHandle 1 0 with dirty := false }, backupHeader))
      (.saves plainHost (readyEnv 9) { emptyHandle 1 0 with dirty := false } backupHeader 1) s
      (.ok, { emptyHandle 1 0 with dirty := false }, backupHeader) s' := by
  obtain ⟨s, hrun, hentry, hseat⟩ := twoClients_saved false
  refine ⟨s, _, twoClients_begins false, hrun, .begin hseat rfl fun data hholds => ?_, ?_⟩
  · obtain rfl : sealedBytes (emptySnapshot 2 5) = data := Slot.holds.inj (hentry.symm.trans hholds)
    exact emptySnapshot_saved_ne
  · -- The program has returned already.
    exact (Sessions.seat_update ..).trans rfl

end PVault
