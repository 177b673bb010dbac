import PVault.Moves

/-!
# Taking turns (`src/store.c`)

The lock of a vault lies next to it, so a client finds it where the path leads. As directories
stay where they are, all clients of a path lock the same place, and one of them at a time works
there.

* `underLock_leads` — the work under the lock starts where the path leads at that moment.
* `saveLocked_turnedAway` — a save that finds another snapshot than its base, or none, changes
  nothing at all; without failing calls it answers that the vault is locked.
* `readDiskFile_beside` — a reader takes no lock, and still reads one snapshot that was active at
  some moment while it read.
-/

namespace PVault

open Binary Conc

/-! ## Where the lock is taken -/

/-- The others leave the place of the vault where it is. -/
structure StaysPut (path : Bytes) (R : Fs → Fs → Prop) : Prop where
  at_later : ∀ a b location, R a b → a.At path location → b.At path location
  leadsTo_later : ∀ a b location, R a b → a.LeadsTo path location → b.LeadsTo path location

theorem staysPut_drift {Hash : Type} (so : Sodium Hash) (path : Bytes) :
    StaysPut path (Fs.Drift so path) where
  at_later _ _ _ h hat := hat.later (Fs.Drift.evolves h)
  leadsTo_later _ _ _ h hleads := Fs.Drift.leadsTo h hleads

section Locating

variable {faults : Bool} {R G : Fs → Fs → Prop} {fs : Fs} {path : Bytes}

theorem openPrivateParent_leads (hR : StaysPut path R) (hG : ∀ fs, G fs fs) :
    (files faults R G).wp (openPrivateParent path)
      (fun r fs' => ∀ d name, r = .ok (d, name) → fs'.LeadsTo path ⟨d, name⟩) fs := by
  rw [openPrivateParent]
  split
  · exact fun _ _ h => by cases h
  next parent name hsplit =>
  refine wp_query rfl hG (fun fs₁ _ _ _ _ _ h => by cases h) fun fs₁ d _ hopen => ?_
  have hat : fs₁.At path ⟨d, name⟩ := by
    refine ⟨parent, hsplit, ?_⟩
    simp only [Fs.act] at hopen
    split at hopen
    · next heq => cases hopen; exact heq
    · cases hopen
  have hclose : ∀ fs₂, (files faults R G).wp (closeAnd .errIo)
      (fun r fs' => ∀ d name, r = .ok (d, name) → fs'.LeadsTo path ⟨d, name⟩) fs₂ :=
    fun _ => wp_close hG fun _ _ _ _ _ _ h => by cases h
  refine wp_query rfl hG (fun fs₂ _ _ _ => hclose fs₂) fun fs₂ st hrely hstat => ?_
  dsimp only
  split
  · next hgood =>
    rintro d' name' ⟨⟩
    refine (hR.at_later _ _ _ hrely hat).leadsTo ?_
    simp only [Fs.act] at hstat
    split at hstat
    · next dir hfound =>
      cases hstat
      exact ⟨dir, hfound, hgood⟩
    · cases hstat
  · exact hclose fs₂

/-- An opened location is where the path leads. -/
theorem openStoreLocation_leads (hR : StaysPut path R) (hG : ∀ fs, G fs fs) :
    (files faults R G).wp (openStoreLocation path)
      (fun r fs' => ∀ location, r = .ok location → fs'.LeadsTo path location) fs := by
  refine Sem.wp_then (openPrivateParent_leads hR hG) fun r fs₁ hleads => ?_
  cases r with
  | error status => exact fun _ h => nomatch h
  | ok found =>
    obtain ⟨d, name⟩ := found
    refine wp_query rfl hG (fun _ _ _ _ => wp_close hG fun _ _ _ _ _ h => nomatch h)
      fun fs₂ _ hrely _ => ?_
    rintro location ⟨⟩
    exact hR.leadsTo_later _ _ _ hrely (hleads d name rfl)

end Locating

/-- A new lock lies where the path leads. -/
def Leads (path : Bytes) (a b : World) : Prop :=
  ∀ l ∈ b.locks, l ∈ a.locks ∨ b.fs.At path l.location

section Locking

variable {faults : Bool} {c : Nat} {R : World → World → Prop} {path : Bytes} {w : World} {α : Type}
variable {G : World → World → Prop} {Q : α → World → Prop} {S : Fs → Fs → Prop}

theorem system_and {G' : World → World → Prop} {p : SysM α} {Q' : α → World → Prop}
    (h : (system faults c R G).wp p Q w) (h' : (system faults c R G').wp p Q' w) :
    (system faults c R fun a b => G a b ∧ G' a b).wp p (fun a w' => Q a w' ∧ Q' a w') w :=
  Sem.wp_and (S := system faults c R G) h h'

theorem system_guar {G' : World → World → Prop} {p : SysM α} (hG : ∀ a b, G a b → G' a b)
    (h : (system faults c R G).wp p Q w) :
    (system faults c R G').wp p Q w :=
  Sem.wp_sub (S := system faults c R G) (fun _ _ _ _ h => h) (fun _ _ h => h) hG id h

/-- A call, and what is done with its answer. -/
theorem wp_ask {op : SysOp} {k : SysRes op → SysM α}
    (h : ∀ w₁ r w₂, R w w₁ → World.Step faults c w₁ op r w₂ →
      G w₁ w₂ ∧ (system faults c R G).wp (k r) Q w₂) :
    (system faults c R G).wp (ask op >>= k) Q w :=
  fun w₁ hrely r w₂ hstep => h w₁ r w₂ hrely hstep

theorem leads_of_subset {a b : World} (h : ∀ l ∈ b.locks, l ∈ a.locks) : Leads path a b :=
  fun l hl => .inl (h l hl)

theorem leads_release (w : World) (gone : Lock → Bool) : Leads path w (w.release gone) :=
  leads_of_subset fun _ hl => (List.mem_filter.mp hl).1

/-- Work on files takes no lock. -/
theorem wp_onFiles {p : FileM α} {Q : α → Fs → Prop} (hS : ∀ a b, R a b → S a.fs b.fs)
    (h : (files faults S fun _ _ => True).wp p Q w.fs) :
    (system faults c R (Leads path)).wp (onFiles p) (fun a w' => Q a w'.fs) w := by
  have hlift : (system faults c R (Leads path)).wp (onFiles p) (fun a w' => True ∧ Q a w'.fs) w := by
    refine Sem.wp_lift (S := files faults S fun _ _ => True) World.fs (fun _ => True) id
      (fun w₁ w₂ _ hrely => ⟨trivial, hS _ _ hrely⟩) (fun w₁ op r w₂ _ hstep => ?_) trivial h
    cases hstep with
    | file hstep => exact ⟨hstep, fun _ => ⟨trivial, leads_of_subset fun _ hl => hl⟩⟩
  exact Sem.wp_mono hlift fun _ _ h => h.2

theorem wp_onFiles_any (p : FileM α) :
    (system true c R (Leads path)).wp (onFiles p) (fun _ _ => True) w := by
  refine wp_onFiles (S := fun _ _ => True) (Q := fun _ _ => True) (fun _ _ _ => trivial) ?_
  refine Sem.wp_mono (Sem.wp_only (A := fun _ => True) rfl (fun _ _ _ _ => trivial)
    (fun _ _ _ _ _ _ _ => ⟨trivial, trivial⟩) p.only_trivial trivial) fun _ _ _ => trivial

theorem wp_onFiles_close : (system faults c R (Leads path)).wp (onFiles closeStoreLocation)
    (fun _ _ => True) w :=
  wp_onFiles (S := fun _ _ => True) (Q := fun _ _ => True) (fun _ _ _ => trivial)
    (wp_close (fun _ => trivial) fun _ _ _ _ => trivial)

theorem abandonLock_leads {location : Location} {status : PvStatus} :
    (system faults c R (Leads path)).wp (abandonLock location status : SysM (Except PvStatus α))
      (fun r _ => ∀ a, r ≠ .ok a) w := by
  refine wp_ask fun w₁ r w₂ _ hstep => ?_
  cases hstep with
  | closeLock =>
    exact ⟨leads_release _ _, Sem.wp_then wp_onFiles_close fun _ _ _ _ => nofun⟩

/-- **The lock is taken where the path leads.** -/
theorem lockVault_leads (hS : StaysPut path S) (hR : ∀ a b, R a b → S a.fs b.fs) :
    (system faults c R (Leads path)).wp (lockVault path)
      (fun r w' => ∀ location, r = .ok location → w'.fs.LeadsTo path location) w := by
  refine Sem.wp_then (wp_onFiles hR (openStoreLocation_leads hS fun _ => trivial))
    fun r w₁ hleads => ?_
  cases r with
  | error status => exact fun _ h => nomatch h
  | ok location =>
  have hlater : ∀ {w₂ w₃}, R w₂ w₃ → w₂.fs.LeadsTo path location → w₃.fs.LeadsTo path location :=
    fun hrely h => hS.leadsTo_later _ _ _ (hR _ _ hrely) h
  have hleads := hleads location rfl
  have hleave : ∀ {w₂ status}, (system faults c R (Leads path)).wp
      (abandonLock location status : SysM (Except PvStatus Location))
      (fun r w' => ∀ location, r = .ok location → w'.fs.LeadsTo path location) w₂ :=
    Sem.wp_mono abandonLock_leads fun _ _ hbad l hl => absurd hl (hbad l)
  dsimp only
  split
  · exact Sem.wp_then wp_onFiles_close fun _ _ _ _ h => nomatch h
  refine wp_ask fun w₂ r w₂' h₂ hstep => ?_
  obtain rfl : w₂' = w₂ := by cases hstep <;> rfl
  refine ⟨leads_of_subset fun _ hl => hl, ?_⟩
  cases r with
  | error e => exact Sem.wp_then wp_onFiles_close fun _ _ _ _ h => nomatch h
  | ok _ =>
  refine wp_ask fun w₃ r w₃' h₃ hstep => ?_
  obtain rfl : w₃' = w₃ := by cases hstep <;> rfl
  refine ⟨leads_of_subset fun _ hl => hl, ?_⟩
  cases r with
  | error e => exact hleave
  | ok st =>
  dsimp only
  split
  · exact hleave
  refine wp_ask fun w₄ r w₄' h₄ hstep => ?_
  obtain rfl : w₄' = w₄ := by cases hstep <;> rfl
  refine ⟨leads_of_subset fun _ hl => hl, ?_⟩
  cases r with
  | error e => exact hleave
  | ok _ =>
  refine wp_ask fun w₅ r w₅' h₅ hstep => ?_
  have hleads₅ := hlater h₅ (hlater h₄ (hlater h₃ (hlater h₂ hleads)))
  cases hstep with
  | flock hfree =>
    refine ⟨fun l hl => ?_, ?_⟩
    · rcases List.mem_cons.mp hl with rfl | hl
      · exact .inr hleads₅.at
      · exact .inl hl
    · rintro location' ⟨⟩
      exact hleads₅
  | busy => exact ⟨leads_of_subset fun _ hl => hl, hleave⟩
  | flockFails => exact ⟨leads_of_subset fun _ hl => hl, hleave⟩

theorem unlockVault_leads {location : Location} :
    (system faults c R (Leads path)).wp (unlockVault location) (fun _ _ => True) w := by
  refine wp_ask fun w₁ r w₂ _ hstep => ⟨?_, ?_⟩
  swap
  · refine wp_ask fun w₃ r w₄ _ hstep => ⟨?_, wp_onFiles_close⟩
    cases hstep with
    | closeLock => exact leads_release _ _
  · cases hstep with
    | unlock => exact leads_release _ _
    | unlockFails => exact leads_of_subset fun _ hl => hl

/-- All locks of a client are taken where the path leads. -/
theorem underLock_locks {refused : PvStatus → α} {body : Location → FileM α}
    (hS : StaysPut path S) (hR : ∀ a b, R a b → S a.fs b.fs) :
    (system true c R (Leads path)).wp (underLock path refused body) (fun _ _ => True) w := by
  refine Sem.wp_then (lockVault_leads hS hR) fun r w₁ _ => ?_
  cases r with
  | error status => trivial
  | ok location =>
    refine Sem.wp_then (wp_onFiles_any (body location)) fun a w₂ _ => ?_
    exact Sem.wp_then unlockVault_leads fun _ _ _ => trivial

end Locking

section Working

variable {faults : Bool} {c : Nat} {R : World → World → Prop} {outside : Fs → Fs → Prop}
  {work : Location → Fs → Fs → Fs → Prop} {path : Bytes} {w : World} {α : Type}

/-- **Work under the lock** starts where the path leads. -/
theorem underLock_leads {S : Fs → Fs → Prop} {refused : PvStatus → α} {body : Location → FileM α}
    {Q : Location → Fs → α → Fs → Prop} (hS : StaysPut path S) (hRS : ∀ a b, R a b → S a.fs b.fs)
    (hR : Neighbours c R) (hidle : w.Idle c)
    (hbody : ∀ location w₁, R w w₁ → w₁.fs.LeadsTo path location →
      (files faults Alone (work location w₁.fs)).wp (body location) (Q location w₁.fs) w₁.fs) :
    (system faults c R (Acts c outside work)).wp (underLock path refused body)
      (LockOutcome faults c R path refused
        (fun location fs a fs' => fs.LeadsTo path location ∧ Q location fs a fs') w) w := by
  have hlock : (system faults c R (Acts c outside work)).wp (lockVault path)
      (fun r w' => LockResult faults c R path w r w' ∧
        ∀ location, r = .ok location → w'.fs.LeadsTo path location) w := by
    exact system_guar (fun _ _ h => h.1) (system_and (lockVault_spec hR hidle) (lockVault_leads hS hRS))
  refine Sem.wp_then hlock ?_
  rintro r w₂ ⟨hresult, hleads⟩
  cases r with
  | error status => exact .refused hresult
  | ok location =>
    obtain ⟨w₀, w₁, h₀, hat, hhosts, h₁, hfree, rfl⟩ := hresult
    have hleads : w₁.fs.LeadsTo path location := hleads location rfl
    refine Sem.wp_then (wp_work hR ((hR.idle h₁ hidle).locksOf_taken location) (hbody location w₁ h₁ hleads)) ?_
    rintro a w₃ ⟨hin, hQ⟩
    refine Sem.wp_then (unlockVault_spec hR hin) fun _ w₄ hafter => ?_
    exact .done h₀ hat hhosts h₁ hfree ⟨hleads, hQ⟩ hafter

end Working

/-! ## A save that finds another snapshot -/

section TurnedAway

variable {Hash : Type} {so : Sodium Hash} {host : Host} {faults : Bool} {fs : Fs}
  {env : SaveEnv} {location : Location} {vault : Vault Hash} {header : FileHeader} {retention : Nat}

/-- What comes of a save whose base is not active. -/
structure TurnedAway (so : Sodium Hash) (faults : Bool) (location : Location) (vault : Vault Hash)
    (header : FileHeader) (fs : Fs) (r : PvStatus × Vault Hash × FileHeader) (fs' : Fs) : Prop where
  files_eq : fs' = fs
  handle_eq : r.2 = (vault, header)
  refused : ¬r.1.Committed
  /-- if no call fails and the active file can be read, the vault is called locked -/
  locked : faults = false → vault.generation.toNat ≠ 2 ^ 64 - 1 →
    (fs.lookup location.dir location.name = none ∨
      ∃ current, fs.Shows so location.dir location.name current ∧ current.stat.mode = 0o600) →
    r.1 = .errLocked

theorem TurnedAway.leaves {status : PvStatus} (hbad : ¬status.Committed)
    (hlocked : faults = false → vault.generation.toNat ≠ 2 ^ 64 - 1 →
      (fs.lookup location.dir location.name = none ∨
        ∃ current, fs.Shows so location.dir location.name current ∧ current.stat.mode = 0o600) →
      status = .errLocked) :
    TurnedAway so faults location vault header fs (status, vault, header) fs :=
  ⟨rfl, rfl, hbad, hlocked⟩

/-- **A save whose base is not active does nothing.** -/
theorem saveLocked_turnedAway [DecidableEq Hash]
    (hbase : ∀ data, fs.active location = .holds data → so.generichash data ≠ vault.sourceHash) :
    (files faults Alone fun a b => b = a).wp
      (saveLocked so host env location vault header retention false)
      (TurnedAway so faults location vault header fs) fs := by
  rw [saveLocked]
  split
  · next hmax => exact TurnedAway.leaves (by decide) fun _ hne => absurd hmax hne
  refine Sem.wp_then (pathEntryExistsAt_spec fun _ => rfl) ?_
  rintro r fs₁ ⟨rfl, herror, habsent, hpresent⟩
  -- Nobody has acted, so a file that can be read is found.
  have hshown : ∀ current : DiskFile Hash, faults = false →
      fs₁.Shows so location.dir location.name current → r = .ok true := by
    rintro current hfalse ⟨i, n, hlook, hn, -⟩
    exact hpresent hfalse i n hlook hn
  cases r with
  | error status =>
    obtain rfl := herror status rfl
    refine TurnedAway.leaves (by decide) fun hfalse _ hsound => ?_
    rcases hsound with hnone | ⟨current, hshows, -⟩
    · cases habsent hfalse hnone
    · cases hshown current hfalse hshows
  | ok found =>
  cases found with
  | false => exact TurnedAway.leaves (by decide) fun _ _ _ => rfl
  | true =>
  refine Sem.wp_then (readDiskFileAt_alone so host fun _ => rfl) ?_
  rintro r fs₂ ⟨rfl, hread, hunread⟩
  cases r with
  | error status =>
    obtain ⟨hbad, hwhy⟩ := hunread status rfl
    refine TurnedAway.leaves hbad fun hfalse _ hsound => ?_
    rcases hsound with hnone | ⟨current, hshows, -⟩
    · cases habsent hfalse hnone
    · exact absurd hshows (hwhy hfalse current)
  | ok current =>
  have hshows := hread current rfl
  have hstale : current.hash ≠ vault.sourceHash := by
    obtain ⟨i, n, -, -, -, hreads, -⟩ := id hshows
    rw [hreads.hash_eq, ← hreads.bytes_eq]
    exact hbase _ hshows.slot_eq
  dsimp only
  split
  · next hmode =>
    refine TurnedAway.leaves (by decide) fun hfalse _ hsound => ?_
    rcases hsound with hnone | ⟨other, hother, hmode'⟩
    · cases habsent hfalse hnone
    · -- the file has one mode
      obtain ⟨i, n, hlook, hn, -, -, hst⟩ := hshows
      obtain ⟨j, m, hlook', hm, -, -, hst'⟩ := hother
      rw [hlook] at hlook'
      cases hlook'
      rw [hn] at hm
      cases hm
      exact absurd (hst.trans hst'.symm ▸ hmode') hmode
  · rw [if_pos (.inl hstale)]
    exact TurnedAway.leaves (by decide) fun _ _ _ => rfl

end TurnedAway

/-! ## Reading next to writers -/

section Reading

variable {Hash : Type} {so : Sodium Hash} {faults : Bool} {G : Fs → Fs → Prop} {fs : Fs} {path : Bytes}

/-- What was read had been active: between the files `fs` and `fs'` there is a moment when the path
showed it. -/
structure ReadActive (so : Sodium Hash) (path : Bytes) (disk : DiskFile Hash) (fs fs' : Fs) : Prop where
  reads : disk.Reads so disk.bytes
  moment : ∃ location fs₁, Fs.Drift so path fs fs₁ ∧ Fs.Drift so path fs₁ fs' ∧
    fs₁.LeadsTo path location ∧ fs₁.entry path = .holds disk.bytes

/-- **Whoever reads the active file reads one snapshot**, which was active at some moment. -/
theorem readDiskFile_beside (host : Host) (hord : fs.Ordered path) (hG : ∀ fs, G fs fs) :
    (files faults (Fs.Drift so path) G).wp (readDiskFile so host path)
      (fun r fs' => Fs.Drift so path fs fs' ∧
        ∀ disk, r = .ok disk → ReadActive so path disk fs fs') fs := by
  have hrefl : ∀ fs, Fs.Drift so path fs fs := fun _ => .refl
  have htrans : ∀ a b c, Fs.Drift so path a b → Fs.Drift so path b c → Fs.Drift so path a c :=
    fun _ _ _ => .trans
  have hfound : (files faults (Fs.Drift so path) G).wp (openStoreLocation path)
      (fun r fs' => Fs.Drift so path fs fs' ∧
        ∀ location, r = .ok location → fs'.LeadsTo path location) fs := by
    refine Sem.wp_sub (S := files faults (Fs.Drift so path) fun a b => G a b ∧ G a b)
      (fun _ _ _ _ h => h) (fun _ _ h => h) (fun _ _ h => h.1) id ?_
    refine Sem.wp_mono (Sem.wp_and (S := files faults (Fs.Drift so path) G)
      (openStoreLocation_spec hG hrefl htrans)
      (openStoreLocation_leads (staysPut_drift so path) hG)) fun _ _ h => ⟨h.1.1, h.2⟩
  refine Sem.wp_then hfound ?_
  rintro r fs₁ ⟨h₁, hleads⟩
  cases r with
  | error status => exact ⟨h₁, nofun⟩
  | ok location =>
  have hleads := hleads location rfl
  have hord₁ := Fs.Drift.ordered h₁ hord
  refine Sem.wp_then (readDiskFileAt_spec so host hG hrefl htrans fun fs₂ i h₂ hlook =>
    (Fs.Drift.ordered h₂ hord₁).settled (Fs.Drift.leadsTo h₂ hleads).at hlook) ?_
  rintro r fs₂ ⟨h₂, hread⟩
  cases r with
  | error status => exact wp_close hG fun fs₃ _ h₃ _ => ⟨(h₁.trans h₂).trans h₃, nofun⟩
  | ok disk =>
  refine Sem.wp_then (revalidateStoreLocation_spec hG hrefl htrans) ?_
  rintro status fs₃ ⟨h₃, -⟩
  refine wp_close hG fun fs₄ _ h₄ _ => ?_
  have hend := h₃.trans h₄
  split
  · exact ⟨(h₁.trans h₂).trans hend, nofun⟩
  refine ⟨(h₁.trans h₂).trans hend, ?_⟩
  rintro disk' ⟨⟩
  obtain ⟨a, b, i, n, ha, hlook, hab, hb, hn, -, hreads, -⟩ := hread
  have hleads := Fs.Drift.leadsTo ha hleads
  have hat := hleads.at
  -- The file had the same content when it was opened.
  have hsettled : Settled (Fs.Drift so path) i a := (Fs.Drift.ordered ha hord₁).settled hat hlook
  have hdata := hsettled b hab
  rw [hn] at hdata
  refine ⟨hreads.bytes_eq ▸ hreads, location, a, h₁.trans ha, (hab.trans hb).trans hend, hleads, ?_⟩
  rw [hat.entry_eq, Fs.slot, hlook, hreads.bytes_eq]
  cases hm : a.inodes[i]? with
  | none => rw [hm] at hdata; cases hdata
  | some m =>
    rw [hm] at hdata
    simp only [hm]
    exact congrArg Slot.holds (Option.some.inj hdata).symm

end Reading

end PVault
