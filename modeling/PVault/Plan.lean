import Mathlib.Logic.Relation
import PVault.Publish

/-!
# What an operation under the lock may do

Saving, creating and restoring a vault all follow one plan: copy the active snapshot into
`backups`, then give the new snapshot its name, then perhaps remove old backups.
`Plan.Step` lists the steps such an operation may take; programs are verified to take no
others, and everything that holds at each point of an operation follows from the list:

* `Plan.Safe` — the active name shows the old snapshot, or the new one while a copy of the old
  one is in `backups`; and each name was bound by renaming a synced temporary.
* `Plan.Safe.step` — every step of the plan keeps that.
-/

namespace PVault

open Binary Conc

/-! ## Unfinished files -/

/-- The names of unfinished files: temporaries of the vault beside it, and of snapshots in other
directories. -/
def Scratch (location : Location) (d : Nat) (name : Bytes) : Prop :=
  ∃ base suffix, name = temporaryName base suffix ∧
    if d = location.dir then base = location.name else snapshotExtension <:+ base

section Names

variable {location : Location} {d : Nat} {name : Bytes}

theorem scratch_active (suffix : UInt32) :
    Scratch location location.dir (temporaryName location.name suffix) :=
  ⟨_, suffix, rfl, by rw [if_pos rfl]⟩

theorem scratch_snapshot (hd : d ≠ location.dir) (hname : snapshotExtension <:+ name)
    (suffix : UInt32) : Scratch location d (temporaryName name suffix) :=
  ⟨_, suffix, rfl, by rwa [if_neg hd]⟩

theorem not_scratch_active : ¬Scratch location location.dir location.name := by
  rintro ⟨base, suffix, heq, hbase⟩
  rw [if_pos rfl] at hbase
  rw [hbase] at heq
  exact temporaryName_ne _ _ heq.symm

theorem not_scratch_snapshot (hname : snapshotExtension <:+ name) : ¬Scratch location d name := by
  rintro ⟨base, suffix, rfl, -⟩
  exact temporaryName_not_snapshot _ _ hname

theorem not_scratch_backups : ¬Scratch location d backupsName := by
  rintro ⟨base, suffix, heq, -⟩
  exact temporaryName_ne_backups _ _ heq.symm

end Names

/-- Only unfinished files have names of unfinished files. -/
def Fs.Tidy (location : Location) (fs : Fs) : Prop := ∀ d name, ¬Scratch location d name → fs.Kept d name

/-- What the name of the vault shows. -/
abbrev Fs.active (fs : Fs) (location : Location) : Slot := fs.slot location.dir location.name

theorem Fs.lookup_of_holds {fs : Fs} {d : Nat} {name data : Bytes} (h : fs.slot d name = .holds data) :
    ∃ i, fs.lookup d name = some (.file i) := by
  rw [Fs.slot] at h
  rcases hlook : fs.lookup d name with _ | ⟨i⟩ | _ | _
  · rw [hlook] at h; cases h
  · exact ⟨i, rfl⟩
  · rw [hlook] at h; cases h
  · rw [hlook] at h; cases h

/-- The directory of backups is not the directory of the vault. -/
theorem Fs.backups_ne {fs : Fs} {location : Location} {d : Nat}
    (h : fs.lookup location.dir backupsName = some (.dir d)) : d ≠ location.dir := fs.nested _ _ _ h

/-! ## Plans -/

/-- What an operation sets out to do. -/
structure Plan where
  location : Location
  /-- what the name showed when the lock was taken -/
  old : Slot
  /-- the snapshots that may be replaced -/
  base : Bytes → Prop
  /-- the name, in `backups`, for the copy of what is replaced -/
  backup : Bytes
  /-- the new snapshot -/
  content : Bytes
  /-- the backups that may be removed at the end -/
  prunes : Bytes → Prop
  backup_snapshot : snapshotExtension <:+ backup
  backup_stays : ¬prunes backup
  prunes_snapshot : ∀ name, prunes name → snapshotExtension <:+ name

namespace Plan

variable {plan : Plan} {a b : Fs}
variable {d i : Nat} {name data : Bytes} {fs₀ : Fs}

/-- A copy of the data is in `backups`. -/
def Copied (plan : Plan) (fs : Fs) (data : Bytes) : Prop :=
  ∃ d, fs.lookup plan.location.dir backupsName = some (.dir d) ∧
    fs.slot d plan.backup = .holds data

/-- **The steps of an operation.** -/
inductive Step (plan : Plan) : Fs → Fs → Prop
  | quiet {a b : Fs} (h : Fs.Quiet (Scratch plan.location) a b) : Step plan a b
  | made {a b : Fs} (hactive : a.lookup plan.location.dir plan.location.name ≠ none)
      (h : Fs.Made plan.location.dir backupsName a b) : Step plan a b
  | backup {a b : Fs} {d i : Nat} {data : Bytes} (hold : plan.old = .holds data)
      (hbase : plan.base data) (hdir : a.lookup plan.location.dir backupsName = some (.dir d))
      (hfree : a.lookup d plan.backup = none)
      (h : Fs.Published (Scratch plan.location) d plan.backup i (publishedInode data 0o600) a b) :
      Step plan a b
  | replace {a b : Fs} {i : Nat} {data : Bytes} (hold : plan.old = .holds data)
      (hbase : plan.base data) (hactive : a.active plan.location = .holds data)
      (hcopied : plan.Copied a data)
      (h : Fs.Published (Scratch plan.location) plan.location.dir plan.location.name i
        (publishedInode plan.content 0o600) a b) : Step plan a b
  | create {a b : Fs} {i : Nat} (hold : plan.old = .absent)
      (hfree : a.lookup plan.location.dir plan.location.name = none)
      (h : Fs.Published (Scratch plan.location) plan.location.dir plan.location.name i
        (publishedInode plan.content 0o600) a b) : Step plan a b
  | pruned {a b : Fs} {d : Nat} (hdir : a.lookup plan.location.dir backupsName = some (.dir d))
      (h : Fs.Pruned d plan.prunes a b) : Step plan a b

theorem Step.refl (a : Fs) : plan.Step a a := .quiet (Fs.Quiet.refl a)

/-- The steps that prepare the commit. -/
inductive Prepares (plan : Plan) : Fs → Fs → Prop
  | quiet {a b : Fs} (h : Fs.Quiet (Scratch plan.location) a b) : Prepares plan a b
  | made {a b : Fs} (hactive : a.lookup plan.location.dir plan.location.name ≠ none)
      (h : Fs.Made plan.location.dir backupsName a b) : Prepares plan a b
  | backup {a b : Fs} {d i : Nat} {data : Bytes} (hold : plan.old = .holds data)
      (hbase : plan.base data) (hdir : a.lookup plan.location.dir backupsName = some (.dir d))
      (hfree : a.lookup d plan.backup = none)
      (h : Fs.Published (Scratch plan.location) d plan.backup i (publishedInode data 0o600) a b) :
      Prepares plan a b

theorem Prepares.step (h : plan.Prepares a b) : plan.Step a b := by
  cases h with
  | quiet h => exact .quiet h
  | made hactive h => exact .made hactive h
  | backup hold hbase hdir hfree h => exact .backup hold hbase hdir hfree h

/-- They leave the active name alone. -/
theorem Prepares.lookup_eq (h : plan.Prepares a b) :
    b.lookup plan.location.dir plan.location.name = a.lookup plan.location.dir plan.location.name := by
  cases h with
  | quiet h => exact h.lookup_eq _ _ not_scratch_active
  | made hactive h => exact h.lookup_eq _ _ (.inl hactive)
  | backup _ _ hdir _ h =>
    exact h.lookup_ne _ _ not_scratch_active fun heq => Fs.backups_ne hdir (Prod.mk.inj heq).1.symm

/-- Published files, directories and the log of renames survive. -/
theorem Step.evolves (h : plan.Step a b) : Fs.Evolves a b := by
  cases h with
  | quiet h => exact h.evolves
  | made _ h => exact h.evolves
  | backup _ _ _ _ h => exact h.evolves
  | replace _ _ _ _ h => exact h.evolves
  | create _ _ h => exact h.evolves
  | pruned _ h => exact h.evolves

/-- Finished files stay finished. -/
theorem Step.tidy (h : plan.Step a b) (ha : a.Tidy plan.location) : b.Tidy plan.location := by
  intro d name hname
  have hpub : ∀ {e other i n}, Fs.Published (Scratch plan.location) e other i n a b →
      b.Kept d name := by
    intro e other i n h
    by_cases heq : (d, name) = (e, other)
    · obtain ⟨rfl, rfl⟩ := Prod.mk.inj heq
      exact h.kept
    · exact (h.evolves.slot_eq (ha d name hname) (h.lookup_ne d name hname heq)).1
  cases h with
  | quiet h => exact h.kept hname (ha d name hname)
  | made _ h => exact h.kept (ha d name hname)
  | backup _ _ _ _ h => exact hpub h
  | replace _ _ _ _ h => exact hpub h
  | create _ _ h => exact hpub h
  | pruned _ h => exact h.kept (ha d name hname)

/-- A finished file that is neither published nor pruned shows what it showed. -/
theorem Step.slot_eq (h : plan.Step a b) (ha : a.Tidy plan.location)
    (hname : ¬Scratch plan.location d name) (hbound : a.lookup d name ≠ none)
    (hbackup : a.lookup plan.location.dir backupsName = some (.dir d) → ¬plan.prunes name)
    (hactive : (d, name) ≠ (plan.location.dir, plan.location.name)) :
    b.lookup d name = a.lookup d name ∧ b.slot d name = a.slot d name := by
  have hsame : b.lookup d name = a.lookup d name := by
    cases h with
    | quiet h => exact h.lookup_eq d name hname
    | made _ h => exact h.lookup_eq d name (.inl hbound)
    | backup _ _ _ hfree h =>
      refine h.lookup_ne d name hname fun heq => hbound ?_
      obtain ⟨rfl, rfl⟩ := Prod.mk.inj heq
      exact hfree
    | replace _ _ _ _ h => exact h.lookup_ne d name hname hactive
    | create _ _ h => exact h.lookup_ne d name hname hactive
    | pruned hdir h =>
      refine h.lookup_eq d name fun hbad => ?_
      rw [← hbad.1] at hdir
      exact hbackup hdir hbad.2
  exact ⟨hsame, (h.evolves.slot_eq (ha d name hname) hsame).2⟩

/-- A copy in `backups` stays. -/
theorem Step.copied (h : plan.Step a b) (ha : a.Tidy plan.location) (hcopied : plan.Copied a data) :
    plan.Copied b data := by
  obtain ⟨d, hdir, hslot⟩ := hcopied
  refine ⟨d, h.evolves.dir_mono _ _ _ hdir, ?_⟩
  rw [(h.slot_eq ha (not_scratch_snapshot plan.backup_snapshot) ?_ (fun _ => plan.backup_stays) ?_).2]
  · exact hslot
  · intro hnone
    rw [Fs.slot, hnone] at hslot
    cases hslot
  · intro heq
    exact Fs.backups_ne hdir (Prod.mk.inj heq).1

/-- **What a step does to the active name**: nothing, or it replaces the old snapshot, of which
there is a copy, or it binds a free name. -/
theorem Step.active (h : plan.Step a b) (ha : a.Tidy plan.location) :
    b.active plan.location = a.active plan.location ∨
      b.active plan.location = .holds plan.content ∧
        ((∃ data, plan.old = .holds data ∧ plan.base data ∧
            a.active plan.location = .holds data ∧ plan.Copied a data) ∨
          plan.old = .absent ∧ a.lookup plan.location.dir plan.location.name = none) := by
  have hkept := ha plan.location.dir plan.location.name not_scratch_active
  cases h with
  | quiet h => exact .inl (h.slot_eq not_scratch_active hkept)
  | made hactive h => exact .inl (h.evolves.slot_eq hkept (h.lookup_eq _ _ (.inl hactive))).2
  | backup _ _ hdir _ h =>
    refine .inl (h.evolves.slot_eq hkept (h.lookup_ne _ _ not_scratch_active fun heq => ?_)).2
    exact Fs.backups_ne hdir (Prod.mk.inj heq).1.symm
  | replace hold hbase hactive hcopied h =>
    exact .inr ⟨h.slot_eq, .inl ⟨_, hold, hbase, hactive, hcopied⟩⟩
  | create hold hfree h => exact .inr ⟨h.slot_eq, .inr ⟨hold, hfree⟩⟩
  | pruned hdir h =>
    refine .inl (h.evolves.slot_eq hkept (h.lookup_eq _ _ fun hbad => ?_)).2
    exact Fs.backups_ne hdir hbad.1.symm

/-- A rename of the plan: a synced temporary with the whole new snapshot became the active
file, or one with the whole old snapshot became its copy in `backups`. -/
structure Logged (plan : Plan) (fs : Fs) (e : Event) : Prop where
  synced : e.synced = true
  temporary : ∃ suffix, e.temporary = temporaryName e.name suffix
  target : (e.dir, e.name) = (plan.location.dir, plan.location.name) ∧ e.data = plan.content ∨
    fs.lookup plan.location.dir backupsName = some (.dir e.dir) ∧ e.name = plan.backup ∧
      plan.old = .holds e.data

/-- The renames of a step. -/
theorem Step.log (h : plan.Step a b) : b.log = a.log ∨ ∃ e, b.log = e :: a.log ∧ plan.Logged b e := by
  cases h with
  | quiet h => exact .inl h.log_eq
  | made _ h => exact .inl h.log_eq
  | backup hold _ hdir _ h =>
    obtain ⟨suffix, hlog⟩ := h.log_eq
    exact .inr ⟨_, hlog, rfl, ⟨suffix, rfl⟩,
      .inr ⟨h.evolves.dir_mono _ _ _ hdir, rfl, hold⟩⟩
  | replace _ _ _ _ h =>
    obtain ⟨suffix, hlog⟩ := h.log_eq
    exact .inr ⟨_, hlog, rfl, ⟨suffix, rfl⟩, .inl ⟨rfl, rfl⟩⟩
  | create _ _ h =>
    obtain ⟨suffix, hlog⟩ := h.log_eq
    exact .inr ⟨_, hlog, rfl, ⟨suffix, rfl⟩, .inl ⟨rfl, rfl⟩⟩
  | pruned _ h => exact .inl h.log_eq

/-! ## Whole operations -/

/-- **At every point of an operation** that started in `fs₀`. -/
structure Safe (plan : Plan) (fs₀ fs : Fs) : Prop where
  evolves : Fs.Evolves fs₀ fs
  tidy : fs.Tidy plan.location
  /-- the active name shows the old snapshot, or the new one, and then the old one is copied -/
  active : fs.active plan.location = plan.old ∨ fs.active plan.location = .holds plan.content ∧
    ∀ data, plan.old = .holds data → plan.base data ∧ plan.Copied fs data
  log : ∃ events, fs.log = events ++ fs₀.log ∧ ∀ e ∈ events, plan.Logged fs e

theorem Safe.start (htidy : fs₀.Tidy plan.location) (hold : fs₀.active plan.location = plan.old) :
    plan.Safe fs₀ fs₀ :=
  ⟨Fs.Evolves.refl _, htidy, .inl hold, [], rfl, fun _ h => by cases h⟩

theorem Logged.later {e : Event} (h : plan.Logged a e) (hev : Fs.Evolves a b) : plan.Logged b e where
  synced := h.synced
  temporary := h.temporary
  target := h.target.imp_right fun hc => ⟨hev.dir_mono _ _ _ hc.1, hc.2⟩

/-- **Every step keeps an operation safe.** -/
theorem Safe.step (hs : plan.Safe fs₀ a) (h : plan.Step a b) : plan.Safe fs₀ b where
  evolves := hs.evolves.trans h.evolves
  tidy := h.tidy hs.tidy
  active := by
    have hstay : ∀ {data}, plan.base data ∧ plan.Copied a data → plan.base data ∧ plan.Copied b data :=
      fun hc => hc.imp_right (h.copied hs.tidy)
    rcases h.active hs.tidy with hsame | ⟨hnew, hwhy⟩
    · rw [hsame]
      exact hs.active.imp_right fun hc => ⟨hc.1, fun data hdata => hstay (hc.2 data hdata)⟩
    · refine .inr ⟨hnew, fun data hdata => ?_⟩
      rcases hwhy with ⟨data', hold, hbase, -, hcopied⟩ | ⟨hold, -⟩
      · rw [hold] at hdata
        cases hdata
        exact hstay ⟨hbase, hcopied⟩
      · rw [hold] at hdata
        cases hdata
  log := by
    obtain ⟨events, hlog, hall⟩ := hs.log
    rcases h.log with hsame | ⟨e, hnew, he⟩
    · exact ⟨events, by rw [hsame, hlog], fun e he => (hall e he).later h.evolves⟩
    · refine ⟨e :: events, by rw [hnew, hlog, List.cons_append], fun e' he' => ?_⟩
      rcases List.mem_cons.mp he' with rfl | he'
      · exact he
      · exact (hall e' he').later h.evolves

/-- Any number of steps. -/
abbrev Steps (plan : Plan) : Fs → Fs → Prop := Relation.ReflTransGen plan.Step

/-- Any number of steps before the commit. -/
abbrev Preparations (plan : Plan) : Fs → Fs → Prop := Relation.ReflTransGen plan.Prepares

theorem Preparations.steps (h : plan.Preparations a b) : plan.Steps a b := by
  induction h with
  | refl => exact .refl
  | tail _ hstep ih => exact ih.tail hstep.step

theorem Preparations.lookup_eq (h : plan.Preparations a b) :
    b.lookup plan.location.dir plan.location.name = a.lookup plan.location.dir plan.location.name := by
  induction h with
  | refl => rfl
  | tail _ hstep ih => exact hstep.lookup_eq.trans ih

theorem Steps.evolves (h : plan.Steps a b) : Fs.Evolves a b := by
  induction h with
  | refl => exact Fs.Evolves.refl _
  | tail _ hstep ih => exact ih.trans hstep.evolves

theorem Steps.tidy (h : plan.Steps a b) (ha : a.Tidy plan.location) : b.Tidy plan.location := by
  induction h with
  | refl => exact ha
  | tail _ hstep ih => exact hstep.tidy ih

theorem Steps.safe (h : plan.Steps a b) (hs : plan.Safe fs₀ a) : plan.Safe fs₀ b := by
  induction h with
  | refl => exact hs
  | tail _ hstep ih => exact ih.step hstep

/-- The directory of the vault keeps its owner and mode. -/
theorem Step.statDir_eq (h : plan.Step a b) :
    b.statDir plan.location.dir = a.statDir plan.location.dir := by
  cases h with
  | quiet h => exact h.statDir_eq _
  | made _ h =>
    rcases h.statDir_eq plan.location.dir with hsame | hself
    · exact hsame
    · exact absurd rfl (Fs.backups_ne hself)
  | backup _ _ _ _ h => exact h.statDir_eq _
  | replace _ _ _ _ h => exact h.statDir_eq _
  | create _ _ h => exact h.statDir_eq _
  | pruned _ h => exact h.statDir_eq _

theorem Steps.statDir_eq (h : plan.Steps a b) :
    b.statDir plan.location.dir = a.statDir plan.location.dir := by
  induction h with
  | refl => rfl
  | tail _ hstep ih => exact hstep.statDir_eq.trans ih

/-- The path of the vault leads where it led. -/
theorem Steps.leadsTo {path : Bytes} (h : plan.Steps a b) (hleads : a.LeadsTo path plan.location) :
    b.LeadsTo path plan.location :=
  h.evolves.leadsTo h.statDir_eq hleads

/-- The new snapshot stays. -/
theorem Steps.active_new (h : plan.Steps a b) (ha : a.Tidy plan.location)
    (hnew : a.active plan.location = .holds plan.content) :
    b.active plan.location = .holds plan.content := by
  induction h with
  | refl => exact hnew
  | tail hsteps hstep ih =>
    rcases hstep.active (Steps.tidy hsteps ha) with hsame | ⟨hagain, -⟩
    · exact hsame.trans ih
    · exact hagain

theorem Steps.copied (h : plan.Steps a b) (ha : a.Tidy plan.location)
    (hcopied : plan.Copied a data) : plan.Copied b data := by
  induction h with
  | refl => exact hcopied
  | tail hsteps hstep ih => exact hstep.copied (Steps.tidy hsteps ha) ih

/-- A file under a finished name was there, or has just been renamed to it. -/
theorem Step.bound (h : plan.Step a b) (hname : ¬Scratch plan.location d name)
    (hlook : b.lookup d name = some (.file i)) : a.lookup d name = some (.file i) ∨
      ∃ e, b.log = e :: a.log ∧ plan.Logged b e ∧ (e.dir, e.name) = (d, name) ∧
        b.slot d name = .holds e.data := by
  -- The rename is the latest entry of the log.
  have hpub : ∀ {x y j data}, Fs.Published (Scratch plan.location) x y j (publishedInode data 0o600) a b →
      (∀ suffix replaced, plan.Logged b ⟨x, temporaryName y suffix, y, replaced, data, true⟩) →
      a.lookup d name = some (.file i) ∨
        ∃ e, b.log = e :: a.log ∧ plan.Logged b e ∧ (e.dir, e.name) = (d, name) ∧
        b.slot d name = .holds e.data := by
    intro x y j data h hlogged
    by_cases heq : (d, name) = (x, y)
    · obtain ⟨rfl, rfl⟩ := Prod.mk.inj heq
      obtain ⟨suffix, hlog⟩ := h.log_eq
      exact .inr ⟨_, hlog, hlogged suffix _, rfl, h.slot_eq⟩
    · exact .inl (h.lookup_ne d name hname heq ▸ hlook)
  cases h with
  | quiet h => exact .inl (h.lookup_eq d name hname ▸ hlook)
  | made _ h => exact .inl (h.lookup_file hlook)
  | backup hold _ hdir _ h =>
    exact hpub h fun suffix _ => ⟨rfl, ⟨suffix, rfl⟩, .inr ⟨h.evolves.dir_mono _ _ _ hdir, rfl, hold⟩⟩
  | replace _ _ _ _ h => exact hpub h fun suffix _ => ⟨rfl, ⟨suffix, rfl⟩, .inl ⟨rfl, rfl⟩⟩
  | create _ _ h => exact hpub h fun suffix _ => ⟨rfl, ⟨suffix, rfl⟩, .inl ⟨rfl, rfl⟩⟩
  | pruned _ h => exact .inl (h.lookup_of_bound hlook)

/-- **Every file under a finished name** was there at the start, or was bound by a later rename. -/
theorem Steps.bound (h : plan.Steps a b) (htidy : a.Tidy plan.location)
    (hname : ¬Scratch plan.location d name) (hlook : b.lookup d name = some (.file i)) :
    a.lookup d name = some (.file i) ∨ ∃ e before, e :: before <:+ b.log ∧ a.log <:+ before ∧
      plan.Logged b e ∧ (e.dir, e.name) = (d, name) ∧ b.slot d name = .holds e.data := by
  induction h with
  | refl => exact .inl hlook
  | @tail c b hsteps hstep ih =>
    rcases hstep.bound hname hlook with hlook' | ⟨e, hlog, hnew⟩
    · refine (ih hlook').imp_right fun ⟨e, before, hlog, hlater, hlogged, htarget, hslot⟩ => ?_
      refine ⟨e, before, hlog.trans hstep.evolves.log_suffix, hlater, hlogged.later hstep.evolves,
        htarget, ?_⟩
      rw [(hstep.evolves.slot_eq (Steps.tidy hsteps htidy d name hname) (hlook.trans hlook'.symm)).2, hslot]
    · exact .inr ⟨e, c.log, hlog ▸ List.suffix_refl _, (Steps.evolves hsteps).log_suffix, hnew⟩

end Plan

/-! ## Files with one name -/

/-- No two finished names lead to one file. -/
def Fs.Unshared (location : Location) (fs : Fs) : Prop :=
  ∀ d name e other i, ¬Scratch location d name → ¬Scratch location e other →
    fs.lookup d name = some (.file i) → fs.lookup e other = some (.file i) → (d, name) = (e, other)

section Unshared

variable {location : Location} {plan : Plan} {a b : Fs}

theorem Fs.Published.unshared {d i : Nat} {name : Bytes} {n : Inode}
    (h : Fs.Published (Scratch location) d name i n a b) (htidy : a.Tidy location)
    (ha : a.Unshared location) : b.Unshared location := by
  -- The published file had no finished name before.
  have hfresh : ∀ e other, ¬Scratch location e other → (e, other) ≠ (d, name) →
      b.lookup e other ≠ some (.file i) := by
    intro e other hother hne hlook
    rw [h.lookup_ne e other hother hne] at hlook
    obtain ⟨m, hm, hpub⟩ := htidy e other hother i hlook
    rw [h.fresh m hm] at hpub
    cases hpub
  intro e other e' other' j hother hother' hlook hlook'
  by_cases heq : (e, other) = (d, name)
  · by_cases heq' : (e', other') = (d, name)
    · exact heq.trans heq'.symm
    · obtain ⟨rfl, rfl⟩ := Prod.mk.inj heq
      rw [h.lookup_eq] at hlook
      cases hlook
      exact absurd hlook' (hfresh e' other' hother' heq')
  · by_cases heq' : (e', other') = (d, name)
    · obtain ⟨rfl, rfl⟩ := Prod.mk.inj heq'
      rw [h.lookup_eq] at hlook'
      cases hlook'
      exact absurd hlook (hfresh e other hother heq)
    · rw [h.lookup_ne e other hother heq] at hlook
      rw [h.lookup_ne e' other' hother' heq'] at hlook'
      exact ha e other e' other' j hother hother' hlook hlook'

namespace Plan

theorem Step.unshared (h : plan.Step a b) (htidy : a.Tidy plan.location)
    (ha : a.Unshared plan.location) : b.Unshared plan.location := by
  -- The other steps give no file another name.
  have hfewer : (∀ e other i, ¬Scratch plan.location e other → b.lookup e other = some (.file i) →
      a.lookup e other = some (.file i)) → b.Unshared plan.location :=
    fun hback e other e' other' i hother hother' hlook hlook' => ha e other e' other' i hother hother'
      (hback e other i hother hlook) (hback e' other' i hother' hlook')
  cases h with
  | quiet h => exact hfewer fun e other i hother hlook => h.lookup_eq e other hother ▸ hlook
  | made _ h => exact hfewer fun e other i _ hlook => h.lookup_file hlook
  | backup _ _ _ _ h => exact h.unshared htidy ha
  | replace _ _ _ _ h => exact h.unshared htidy ha
  | create _ _ h => exact h.unshared htidy ha
  | pruned _ h =>
    exact hfewer fun e other i _ hlook => h.lookup_of_bound hlook

end Plan

end Unshared

/-! ## When nothing fails -/

/-- No unfinished file is left. -/
def Fs.NoScratch (location : Location) (fs : Fs) : Prop :=
  ∀ d name, Scratch location d name → fs.lookup d name = none

section Clean

variable {location : Location} {a b : Fs} {d : Nat} {name : Bytes} {noReplace : Bool}
  {status : PvStatus}

theorem PublishClean.noScratch (h : PublishClean d name noReplace a b status)
    (hname : ¬Scratch location d name) (ha : a.NoScratch location) : b.NoScratch location := by
  intro e other hother
  rw [h.lookup_ne e other, ha e other hother]
  intro heq
  obtain ⟨rfl, rfl⟩ := Prod.mk.inj heq
  exact hname hother

theorem Fs.Made.noScratch (h : Fs.Made location.dir backupsName a b) (ha : a.NoScratch location) :
    b.NoScratch location := by
  intro e other hother
  rw [h.lookup_eq e other (.inr fun heq => ?_), ha e other hother]
  obtain ⟨rfl, rfl⟩ := Prod.mk.inj heq
  exact not_scratch_backups hother

theorem Fs.Pruned.noScratch {P : Bytes → Prop} (h : Fs.Pruned d P a b) (ha : a.NoScratch location) :
    b.NoScratch location := by
  intro e other hother
  by_cases he : e = d
  · subst he
    rcases h.lookup_cases other with hsame | ⟨hnone, -⟩
    · rw [hsame, ha e other hother]
    · exact hnone
  · rw [h.lookup_eq e other fun hbad => he hbad.1, ha e other hother]

theorem Fs.dir_lt {fs : Fs} {st : DirStat} (h : fs.statDir d = some st) : d < fs.dirs.length := by
  obtain ⟨dir, hdir, -⟩ := Option.map_eq_some_iff.mp h
  exact (List.getElem?_eq_some_iff.mp hdir).1

/-- One of the names drawn for each temporary of the plan is free. -/
def Plan.Roomy (plan : Plan) (host : Host) (fs : Fs) : Prop :=
  host.Free fs plan.location.dir plan.location.name ∧
    ∀ d, fs.lookup plan.location.dir backupsName = some (.dir d) → host.Free fs d plan.backup

theorem Fs.NoScratch.roomy {plan : Plan} {host : Host} (h : a.NoScratch plan.location) :
    plan.Roomy host a := by
  refine ⟨⟨0, by decide, h _ _ (scratch_active _)⟩, fun d hdir => ⟨0, by decide, h _ _ ?_⟩⟩
  exact scratch_snapshot (Fs.backups_ne hdir) plan.backup_snapshot _

theorem PublishClean.free {host : Host} {e : Nat} {other : Bytes}
    (h : PublishClean d name noReplace a b status) (hne : e ≠ d) (hfree : host.Free a e other) :
    host.Free b e other := by
  obtain ⟨attempt, hattempt, hnone⟩ := hfree
  refine ⟨attempt, hattempt, ?_⟩
  rw [h.lookup_ne _ _ fun heq => hne (Prod.mk.inj heq).1, hnone]

/-- A fresh directory has no backups; one that was there has the same. -/
theorem Fs.Made.lookup_backup (h : Fs.Made location.dir backupsName a b)
    (hdir : b.lookup location.dir backupsName = some (.dir d)) (name : Bytes) :
    a.lookup location.dir backupsName = some (.dir d) ∧ b.lookup d name = a.lookup d name ∨
      b.lookup d name = none := by
  have hsame : b.lookup d name = a.lookup d name :=
    h.lookup_eq d name (.inr fun heq => Fs.backups_ne hdir (Prod.mk.inj heq).1)
  rcases h.lookup_cases with heq | ⟨e, he, hnew⟩
  · exact .inl ⟨heq ▸ hdir, hsame⟩
  · rw [hdir] at he
    cases he
    exact .inr (hsame.trans (hnew name))

theorem Fs.Made.roomy {plan : Plan} {host : Host} (h : Fs.Made plan.location.dir backupsName a b)
    (ha : plan.Roomy host a) : plan.Roomy host b := by
  obtain ⟨⟨attempt, hattempt, hnone⟩, hbackups⟩ := ha
  refine ⟨⟨attempt, hattempt, ?_⟩, fun d hdir => ?_⟩
  · rw [h.lookup_eq _ _ (.inr fun heq => temporaryName_ne_backups _ _ (Prod.mk.inj heq).2), hnone]
  · rcases h.lookup_cases with heq | ⟨e, he, hnew⟩
    · obtain ⟨attempt, hattempt, hnone⟩ := hbackups d (heq ▸ hdir)
      refine ⟨attempt, hattempt, ?_⟩
      rcases h.lookup_backup hdir (temporaryName plan.backup (host.suffix plan.backup attempt)) with
        ⟨-, hsame⟩ | hfree
      · rw [hsame, hnone]
      · exact hfree
    · refine ⟨0, by decide, ?_⟩
      rw [hdir] at he
      cases he
      rcases h.lookup_backup hdir (temporaryName plan.backup (host.suffix plan.backup 0)) with
        ⟨-, hsame⟩ | hfree
      · exact hsame.trans (hnew _)
      · exact hfree

end Clean

end PVault
