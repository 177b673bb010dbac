import PVault.Crash

/-!
# What clients do to the files of a vault (`src/store.c`)

Several clients share a vault path. Whoever holds the lock takes steps of a plan for the place
the path leads to, and a client that makes the vault first makes the directories on the way
(`Fs.Moves`). Nothing else happens to the files, so everything the clients may count on follows
from these two kinds of steps.

* `Fs.Ordered` — every file that is not a temporary of the vault is finished.
* `Fs.Drift.entry_cases` — the path shows what it showed, or a snapshot that was renamed to it
  since.
* `Fs.Rests.later` — once a snapshot was active, it stays so until a save or a restore puts a
  whole and private one in its place.
-/

namespace PVault

open Binary Conc

variable {Hash : Type} {so : Sodium Hash} {path : Bytes} {location : Location} {a b c : Fs}
variable {data : Bytes} {plan : Plan} {hash : Hash}

/-- **A step of some client.** -/
inductive Fs.Moves (so : Sodium Hash) (path : Bytes) : Fs → Fs → Prop
  /-- the directories on the way are made -/
  | grows {a b : Fs} (habs : path.head? = some 0x2f)
      (h : Fs.Grows (Fs.components (parentPath path)) a b) : Moves so path a b
  /-- the holder of the lock works; what replaces a snapshot is one itself -/
  | works {a b : Fs} {plan : Plan} (hat : a.At path plan.location)
      (hcontent : ∀ data, plan.base data → ∃ disk : DiskFile Hash, disk.Reads so plan.content)
      (h : plan.Step a b) : Moves so path a b

/-- Steps of clients. -/
abbrev Fs.Drift (so : Sodium Hash) (path : Bytes) : Fs → Fs → Prop :=
  Relation.ReflTransGen (Fs.Moves so path)

/-! ## The place of the vault -/

theorem Fs.Moves.evolves (h : Fs.Moves so path a b) : Fs.Evolves a b := by
  cases h with
  | grows _ h =>
    obtain ⟨⟨d, name, hmade⟩, -⟩ := h
    exact hmade.evolves
  | works _ _ h => exact h.evolves

theorem Fs.Drift.evolves (h : Fs.Drift so path a b) : Fs.Evolves a b := by
  induction h with
  | refl => exact Fs.Evolves.refl _
  | tail _ hstep ih => exact ih.trans hstep.evolves

/-- Where the path leads, no directory is missing. -/
theorem Fs.Grows.eq_of_at (habs : path.head? = some 0x2f)
    (h : Fs.Grows (Fs.components (parentPath path)) a b) (hat : a.At path location) : b = a := by
  obtain ⟨parent, hsplit, hresolve⟩ := hat
  refine h.2 ?_
  rw [← Fs.resolve_parent habs hsplit, hresolve]
  exact nofun

/-- A step of a client at a place the path leads to is a step of a plan for that place. -/
theorem Fs.Moves.works_at (h : Fs.Moves so path a b) (hat : a.At path location) :
    b = a ∨ ∃ plan : Plan, plan.location = location ∧
      (∀ data, plan.base data → ∃ disk : DiskFile Hash, disk.Reads so plan.content) ∧
      plan.Step a b := by
  cases h with
  | grows habs h => exact .inl (h.eq_of_at habs hat)
  | works hplan hcontent h => exact .inr ⟨_, hplan.unique hat, hcontent, h⟩

/-- The directory of the vault stays as safe as it was. -/
theorem Fs.Moves.leadsTo (h : Fs.Moves so path a b) (hleads : a.LeadsTo path location) :
    b.LeadsTo path location := by
  rcases h.works_at hleads.at with rfl | ⟨plan, rfl, -, hstep⟩
  · exact hleads
  · exact Plan.Steps.leadsTo (.single hstep) hleads

theorem Fs.Drift.leadsTo (h : Fs.Drift so path a b) (hleads : a.LeadsTo path location) :
    b.LeadsTo path location := by
  induction h with
  | refl => exact hleads
  | tail _ hstep ih => exact hstep.leadsTo ih

/-! ## Finished files -/

/-- Where the path leads, only its temporaries are unfinished; while it leads nowhere, no file
is. -/
structure Fs.Ordered (path : Bytes) (fs : Fs) : Prop where
  tidy : ∀ location, fs.At path location → fs.Tidy location
  finished : (∀ location, ¬fs.At path location) → fs.Finished

theorem Fs.Finished.ordered (h : a.Finished) : a.Ordered path :=
  ⟨fun location _ => h.tidy location, fun _ => h⟩

theorem Fs.Moves.ordered (h : Fs.Moves so path a b) (ha : a.Ordered path) : b.Ordered path := by
  by_cases hat : ∃ location, a.At path location
  · obtain ⟨location, hat⟩ := hat
    have hat' := hat.later h.evolves
    refine ⟨fun other hother => ?_, fun hnone => absurd hat' (hnone location)⟩
    obtain rfl := hat'.unique hother
    rcases h.works_at hat with rfl | ⟨plan, rfl, -, hstep⟩
    · exact ha.tidy _ hat
    · exact hstep.tidy (ha.tidy _ hat)
  · have hfin := ha.finished fun location h => hat ⟨location, h⟩
    cases h with
    | grows _ h => exact (h.finished hfin).ordered
    | works hplan => exact absurd ⟨_, hplan⟩ hat

theorem Fs.Drift.ordered (h : Fs.Drift so path a b) (ha : a.Ordered path) : b.Ordered path := by
  induction h with
  | refl => exact ha
  | tail _ hstep ih => exact hstep.ordered ih

/-- The content of the active file does not change under a reader. -/
theorem Fs.Ordered.settled {i : Nat} (ha : a.Ordered path) (hat : a.At path location)
    (hlook : a.lookup location.dir location.name = some (.file i)) :
    Settled (Fs.Drift so path) i a := by
  intro fs' hdrift
  obtain ⟨n, hn, hpub⟩ := ha.tidy location hat _ _ not_scratch_active i hlook
  obtain ⟨m, hm, heq⟩ := hdrift.evolves.files i n hpub hn
  rw [hm, hn, heq]
  rfl

/-! ## What the path shows -/

/-- A rename after `a` put the data in place. -/
def Fs.Recent (location : Location) (a b : Fs) (data : Bytes) : Prop :=
  ∃ e before, e :: before <:+ b.log ∧ a.log <:+ before ∧
    (e.dir, e.name) = (location.dir, location.name) ∧ e.data = data

theorem Fs.Recent.later (h : Fs.Recent location a b data) (hev : Fs.Evolves b c) :
    Fs.Recent location a c data := by
  obtain ⟨e, before, hlog, hrest⟩ := h
  exact ⟨e, before, hlog.trans hev.log_suffix, hrest⟩

theorem Fs.Recent.since (h : Fs.Recent location b c data) (hev : Fs.Evolves a b) :
    Fs.Recent location a c data := by
  obtain ⟨e, before, hlog, hbefore, hrest⟩ := h
  exact ⟨e, before, hlog, hev.log_suffix.trans hbefore, hrest⟩

/-- A rename to the active name shows its data there. -/
theorem Plan.Step.log_active (h : plan.Step a b) :
    b.log = a.log ∨ ∃ e, b.log = e :: a.log ∧
      ((e.dir, e.name) = (plan.location.dir, plan.location.name) →
        b.active plan.location = .holds e.data) := by
  cases h with
  | quiet h => exact .inl h.log_eq
  | made _ h => exact .inl h.log_eq
  | backup _ _ hdir _ h =>
    obtain ⟨suffix, hlog⟩ := h.log_eq
    exact .inr ⟨_, hlog, fun htarget => absurd (Prod.mk.inj htarget).1 (Fs.backups_ne hdir)⟩
  | replace _ _ _ _ h =>
    obtain ⟨suffix, hlog⟩ := h.log_eq
    exact .inr ⟨_, hlog, fun _ => h.slot_eq⟩
  | create _ _ h =>
    obtain ⟨suffix, hlog⟩ := h.log_eq
    exact .inr ⟨_, hlog, fun _ => h.slot_eq⟩
  | pruned _ h => exact .inl h.log_eq

/-- A step leaves the active name alone, or puts the plan's snapshot there, over one it may
replace or over nothing. -/
theorem Plan.Step.touches (h : plan.Step a b) :
    b.lookup plan.location.dir plan.location.name = a.lookup plan.location.dir plan.location.name ∨
      ∃ i, Fs.Published (Scratch plan.location) plan.location.dir plan.location.name i
          (publishedInode plan.content 0o600) a b ∧
        ((∃ data, plan.base data) ∨ a.lookup plan.location.dir plan.location.name = none) := by
  cases h with
  | quiet h => exact .inl (h.lookup_eq _ _ not_scratch_active)
  | made hactive h => exact .inl (h.lookup_eq _ _ (.inl hactive))
  | backup _ _ hdir _ h =>
    refine .inl (h.lookup_ne _ _ not_scratch_active ?_)
    exact fun heq => Fs.backups_ne hdir (Prod.mk.inj heq).1.symm
  | replace _ hbase _ _ h => exact .inr ⟨_, h, .inl ⟨_, hbase⟩⟩
  | create _ hfree h => exact .inr ⟨_, h, .inr hfree⟩
  | pruned hdir h => exact .inl (h.lookup_eq _ _ fun hbad => Fs.backups_ne hdir hbad.1.symm)

/-- When the active name shows something new, it was renamed to it. -/
theorem Plan.Step.active_logged (h : plan.Step a b) (ha : a.Tidy plan.location) :
    b.active plan.location = a.active plan.location ∨
      ∃ e, b.log = e :: a.log ∧ (e.dir, e.name) = (plan.location.dir, plan.location.name) ∧
        b.active plan.location = .holds e.data := by
  rcases h.touches with hlook | ⟨i, hpub, -⟩
  · exact .inl (h.evolves.slot_eq (ha _ _ not_scratch_active) hlook).2
  · obtain ⟨suffix, hlog⟩ := hpub.log_eq
    exact .inr ⟨_, hlog, rfl, hpub.slot_eq⟩

theorem Fs.Moves.entry_cases (h : Fs.Moves so path a b) (ha : a.Ordered path)
    (hb : b.At path location) :
    b.entry path = a.entry path ∨
      ∃ data, b.entry path = .holds data ∧ Fs.Recent location a b data := by
  cases h with
  | grows habs h => exact .inl (h.entry_eq habs)
  | works hat _ h =>
    have hat' := hat.later h.evolves
    obtain rfl := hat'.unique hb
    rw [hat'.entry_eq, hat.entry_eq]
    rcases h.active_logged (ha.tidy _ hat) with hsame | ⟨e, hlog, htarget, hholds⟩
    · exact .inl hsame
    · exact .inr ⟨e.data, hholds, e, a.log, hlog ▸ List.suffix_refl _, List.suffix_refl _, htarget,
        rfl⟩

/-- **The path shows what it showed, or a snapshot that was renamed to it since.** -/
theorem Fs.Drift.entry_cases (h : Fs.Drift so path a b) (ha : a.Ordered path)
    (hb : b.At path location) :
    b.entry path = a.entry path ∨
      ∃ data, b.entry path = .holds data ∧ Fs.Recent location a b data := by
  induction h using Relation.ReflTransGen.head_induction_on with
  | refl => exact .inl rfl
  | head hstep hrest ih =>
    rename_i x y
    rcases ih (hstep.ordered ha) with hsame | ⟨data, hholds, hrecent⟩
    · by_cases hat : y.At path location
      · rcases hstep.entry_cases ha hat with heq | ⟨data, hholds, hrecent⟩
        · exact .inl (hsame.trans heq)
        · exact .inr ⟨data, hsame.trans hholds, hrecent.later (Fs.Drift.evolves hrest)⟩
      · -- The step did not reach the place yet, so it only made directories.
        cases hstep with
        | grows habs h => exact .inl (hsame.trans (h.entry_eq habs))
        | works hplan _ h =>
          have hat' := hplan.later h.evolves
          exact absurd ((hat'.later (Fs.Drift.evolves hrest)).unique hb ▸ hat') hat
    · exact .inr ⟨data, hholds, hrecent.since hstep.evolves⟩

/-- A name that is taken stays so. -/
theorem Fs.Moves.entry_bound (h : Fs.Moves so path a b) (ha : a.Ordered path)
    (hbound : a.entry path ≠ .absent) : b.entry path ≠ .absent := by
  cases h with
  | grows habs h => rwa [h.entry_eq habs]
  | works hat _ h =>
    rw [hat.entry_eq] at hbound
    rw [(hat.later h.evolves).entry_eq]
    rcases h.active_logged (ha.tidy _ hat) with hsame | ⟨e, -, -, hholds⟩
    · exact fun habsent => hbound (hsame.symm.trans habsent)
    · exact fun habsent => nomatch hholds.symm.trans habsent

/-! ## Snapshots that replaced others -/

/-- The active file was put in place by a save or a restore: it is whole and private, and only
temporaries share it. -/
def Fs.Replaced (so : Sodium Hash) (location : Location) (fs : Fs) : Prop :=
  ∃ i data, fs.lookup location.dir location.name = some (.file i) ∧
    fs.inodes[i]? = some (publishedInode data 0o600) ∧
    (∃ disk : DiskFile Hash, disk.Reads so data) ∧
    ∀ d name, ¬Scratch location d name → fs.lookup d name = some (.file i) →
      (d, name) = (location.dir, location.name)

theorem Fs.Replaced.holdsPrivate (h : a.Replaced so location) : ∃ data, a.HoldsPrivate location data ∧
    ∃ disk : DiskFile Hash, disk.Reads so data := by
  obtain ⟨i, data, hlook, hn, hreads, -⟩ := h
  exact ⟨data, ⟨i, hlook, hn⟩, hreads⟩

/-- A snapshot that is put in place shares its file with temporaries at most. -/
theorem Fs.Published.replaced {i : Nat}
    (h : Fs.Published (Scratch location) location.dir location.name i (publishedInode data 0o600) a b)
    (ha : a.Tidy location) (hreads : ∃ disk : DiskFile Hash, disk.Reads so data) :
    b.Replaced so location := by
  refine ⟨i, data, h.lookup_eq, h.inode_eq, hreads, fun d name hname hlook => ?_⟩
  by_contra hne
  rw [h.lookup_ne d name hname hne] at hlook
  obtain ⟨m, hm, hpub⟩ := ha d name hname i hlook
  rw [h.fresh m hm] at hpub
  cases hpub

/-- **A snapshot that replaced another** is itself replaced by such a one only. -/
theorem Fs.Replaced.step (h : plan.Step a b) (htidy : a.Tidy plan.location)
    (hcontent : ∀ data, plan.base data → ∃ disk : DiskFile Hash, disk.Reads so plan.content)
    (ha : a.Replaced so plan.location) : b.Replaced so plan.location := by
  obtain ⟨i, data, hlook, hn, hreads, hsole⟩ := ha
  cases h with
  | quiet h =>
    refine ⟨i, data, (h.lookup_eq _ _ not_scratch_active).trans hlook, (h.inode_iff i _ rfl).mpr hn,
      hreads, fun d name hname hb => hsole d name hname ?_⟩
    rwa [h.lookup_eq d name hname] at hb
  | made hactive h =>
    exact ⟨i, data, (h.lookup_eq _ _ (.inl hactive)).trans hlook, by rw [h.inodes_eq, hn], hreads,
      fun d name hname hb => hsole d name hname (h.lookup_file hb)⟩
  | @backup e j _ _ _ hdir hfree h =>
    have hne : (plan.location.dir, plan.location.name) ≠ (e, plan.backup) :=
      fun heq => Fs.backups_ne hdir (Prod.mk.inj heq).1.symm
    obtain ⟨m, hm, -, hsame⟩ := h.old i _ rfl hn
    rw [hsame (by rw [hfree]; exact nofun)] at hm
    refine ⟨i, data, (h.lookup_ne _ _ not_scratch_active hne).trans hlook, hm, hreads,
      fun d name hname hb => ?_⟩
    by_cases hbackup : (d, name) = (e, plan.backup)
    · -- The copy is a file of its own.
      obtain ⟨rfl, rfl⟩ := Prod.mk.inj hbackup
      rw [h.lookup_eq] at hb
      cases hb
      exact absurd (h.fresh _ hn) nofun
    · rw [h.lookup_ne d name hname hbackup] at hb
      exact hsole d name hname hb
  | replace _ hbase _ _ h => exact h.replaced htidy (hcontent _ hbase)
  | create _ hfree _ =>
    rw [hlook] at hfree
    cases hfree
  | pruned hdir h =>
    refine ⟨i, data, (h.lookup_eq _ _ fun hbad => Fs.backups_ne hdir hbad.1.symm).trans hlook, ?_,
      hreads, fun d name hname hb => hsole d name hname (h.lookup_of_bound hb)⟩
    obtain ⟨m, hm, -, hsame | ⟨other, hother, hlook'⟩⟩ := h.files i _ hn
    · rw [hm, hsame]
    · have heq := hsole _ other (not_scratch_snapshot (plan.prunes_snapshot other hother)) hlook'
      exact absurd (Prod.mk.inj heq).1 (Fs.backups_ne hdir)

/-- What was active is active, or was replaced. -/
theorem Plan.Step.active_replaced (h : plan.Step a b) (htidy : a.Tidy plan.location)
    (hcontent : ∀ data, plan.base data → ∃ disk : DiskFile Hash, disk.Reads so plan.content)
    (ha : a.active plan.location = .holds data) :
    b.active plan.location = .holds data ∨ b.Replaced so plan.location := by
  rcases h.touches with hlook | ⟨i, hpub, ⟨old, hbase⟩ | hfree⟩
  · exact .inl ((h.evolves.slot_eq (htidy _ _ not_scratch_active) hlook).2.trans ha)
  · exact .inr (hpub.replaced htidy (hcontent old hbase))
  · obtain ⟨j, hlook⟩ := Fs.lookup_of_holds ha
    rw [hlook] at hfree
    cases hfree

/-- A snapshot with that hash is active, or a save or a restore has replaced it. -/
def Fs.Rests (so : Sodium Hash) (path : Bytes) (hash : Hash) (fs : Fs) : Prop :=
  ∃ location data, fs.LeadsTo path location ∧ so.generichash data = hash ∧
    (fs.entry path = .holds data ∨ fs.Replaced so location)

theorem Fs.Rests.move (h : Fs.Moves so path a b) (ha : a.Ordered path)
    (hrests : a.Rests so path hash) : b.Rests so path hash := by
  obtain ⟨location, data, hleads, hhash, hcases⟩ := hrests
  have hleads' := h.leadsTo hleads
  refine ⟨location, data, hleads', hhash, ?_⟩
  rw [hleads'.at.entry_eq]
  rw [hleads.at.entry_eq] at hcases
  have htidy := ha.tidy location hleads.at
  rcases h.works_at hleads.at with rfl | ⟨plan, rfl, hcontent, hstep⟩
  · exact hcases
  rcases hcases with hholds | hreplaced
  · exact hstep.active_replaced htidy hcontent hholds
  · exact .inr (hreplaced.step hstep htidy hcontent)

/-- **Once a snapshot was active**, it stays so until a save or a restore replaces it. -/
theorem Fs.Rests.later (h : Fs.Drift so path a b) (ha : a.Ordered path)
    (hrests : a.Rests so path hash) : b.Rests so path hash := by
  induction h with
  | refl => exact hrests
  | tail hprev hstep ih => exact ih.move hstep (Fs.Drift.ordered hprev ha)

/-- A base that is not active was replaced, by a snapshot that a save can read. -/
theorem Fs.Rests.turned (hrests : a.Rests so path hash) (hat : a.At path location)
    (hne : ∀ data, a.entry path = .holds data → so.generichash data ≠ hash) :
    ∃ current, a.Shows so location.dir location.name current ∧ current.stat.mode = 0o600 ∧
      current.hash ≠ hash := by
  obtain ⟨location', data, hleads, hhash, hholds | hreplaced⟩ := hrests
  · exact absurd hhash (hne data hholds)
  obtain rfl := hleads.at.unique hat
  obtain ⟨new, hprivate, disk, hreads⟩ := hreplaced.holdsPrivate
  obtain ⟨st, hmode, hshows⟩ := hprivate.shows hreads
  refine ⟨_, hshows, hmode, ?_⟩
  rw [show ({ disk with stat := st } : DiskFile Hash).hash = disk.hash from rfl, hreads.hash_eq]
  exact hne new (hat.entry_eq.trans hprivate.active)

end PVault
