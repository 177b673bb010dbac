import PVault.Layout

/-!
# Deleting and editing records (`src/model.c`, `src/cli.c`)

`pv_model_delete` wipes the texts of a record and leaves a tombstone. `command_edit` replaces
one text or one list of a record: the new value is copied behind everything else in the
arena, and the old one is wiped but never reused.

The four texts and the two lists that can be edited are slots (`TextSlot`, `ListSlot`), so
that each kind of replacement is treated once.
-/

namespace PVault

open Binary Bump

variable {σ τ α : Type} {r : Record Slice} {s : Slice} {arena arena' : Arena} {ss : List Slice}
  {status : PvStatus}
variable {stored record : Record Slice} {t : Slice} {x : ArenaM α} {data : Bytes} {maxLen : Nat}

/-! ## Wiping -/

/-- `sodium_memzero` over one slice after the other. -/
def Arena.wipeAll (arena : Arena) (ss : List Slice) : Arena := ss.foldl Arena.wipe arena

@[simp] theorem Arena.wipeAll_nil (arena : Arena) : arena.wipeAll [] = arena := rfl

@[simp] theorem Arena.wipeAll_cons (arena : Arena) (s : Slice) (ss : List Slice) :
    arena.wipeAll (s :: ss) = (arena.wipe s).wipeAll ss := rfl

/-- Wiping touches nothing but the bytes. -/
theorem Arena.wipeAll_frame (ss : List Slice) : ∀ arena : Arena,
    (arena.wipeAll ss).used = arena.used ∧ (arena.wipeAll ss).capacity = arena.capacity ∧
      (arena.wipeAll ss).readonly = arena.readonly := by
  induction ss with
  | nil => intro arena; exact ⟨rfl, rfl, rfl⟩
  | cons s ss ih =>
    intro arena
    obtain ⟨hused, hcap, hro⟩ := ih (arena.wipe s)
    exact ⟨hused, hcap, hro⟩

/-- Wiping as a step of a computation. -/
def wipeAll (ss : List Slice) : ArenaM Unit :=
  ExceptT.mk fun arena => (.ok (), arena.wipeAll ss)

/-! ## Slots -/

/-- The texts of a record that `command_edit` can replace. -/
inductive TextSlot where
  | title | username | password | notes
  deriving DecidableEq, Repr

/-- The lists of a record that `command_edit` can replace. -/
inductive ListSlot where
  | urls | tags
  deriving DecidableEq, Repr

/-- The text in a slot. -/
def TextSlot.get {σ : Type} : TextSlot → Record σ → σ
  | .title, r => r.title
  | .username, r => r.username
  | .password, r => r.password
  | .notes, r => r.notes

/-- Replace the text in a slot. -/
def TextSlot.set {σ : Type} : TextSlot → Record σ → σ → Record σ
  | .title, r, s => { r with title := s }
  | .username, r, s => { r with username := s }
  | .password, r, s => { r with password := s }
  | .notes, r, s => { r with notes := s }

/-- The limit of a slot. -/
def TextSlot.maximum : TextSlot → Nat
  | .title => pvMaxTitle
  | .username => pvMaxUsername
  | .password => pvMaxPassword
  | .notes => pvMaxNotes

/-- The list in a slot. -/
def ListSlot.get {σ : Type} : ListSlot → Record σ → List σ
  | .urls, r => r.urls
  | .tags, r => r.tags

/-- Replace the list in a slot. -/
def ListSlot.set {σ : Type} : ListSlot → Record σ → List σ → Record σ
  | .urls, r, ss => { r with urls := ss }
  | .tags, r, ss => { r with tags := ss }

/-- The limit of an item of the list. -/
def ListSlot.maximum : ListSlot → Nat
  | .urls => pvMaxUrl
  | .tags => pvMaxTag

/-- What `split_csv` returns: at most 64 items of at most `maxLen` bytes. -/
structure CsvItems (maxLen : Nat) where
  items : List Bytes
  length_le : items.length ≤ pvMaxCollectionItems
  each_le : ∀ s ∈ items, s.length ≤ maxLen

/-- What the user asks `command_edit` for. -/
inductive Edit where
  | favorite
  | text (slot : TextSlot) (value : Bytes)
  | list (slot : ListSlot) (value : CsvItems slot.maximum)

/-! ## The operations -/

/-- `replace_slice`. -/
def replaceSlice (destination : Slice) (value : Bytes) (maximum : Nat) : ArenaM Slice := do
  let replacement ← pvArenaCopy value maximum
  wipeAll [destination]
  pure replacement

/-- The copies of the list branch of `command_edit`. -/
def copyItems (items : List Bytes) (maximum : Nat) : ArenaM (List Slice) :=
  if items.length > 0 then do
    let copies ← allocOrLimit (items.length * sizeofSlice) 8
    copyEach sizeofSlice (copySlice maximum) copies items
  else pure []

/-- The list branch of `command_edit`. -/
def replaceList (destination : List Slice) (items : List Bytes) (maximum : Nat) :
    ArenaM (List Slice) := do
  let copies ← copyItems items maximum
  wipeAll destination
  pure copies

/-- The branch of `command_edit` for the field the user named. -/
def applyEdit (record : Record Slice) : Edit → ArenaM (Record Slice)
  | .favorite => pure { record with flags := record.flags ^^^ pvRecordFavorite }
  | .text slot value => do
    let replacement ← replaceSlice (slot.get record) value slot.maximum
    pure (slot.set record replacement)
  | .list slot value => do
    let copies ← replaceList (slot.get record) value.items slot.maximum
    pure (slot.set record copies)

section Vault

variable {Hash : Type}

/-- `command_edit` on the record at `index`, up to the call of `pv_store_save`. -/
def commandEdit (vault : Vault Hash) (index : Nat) (edit : Edit) (now : Int64) (protect : Bool) :
    PvStatus × Vault Hash :=
  match vault.records[index]? with
  | none => (.errNotFound, vault)
  | some record =>
    if record.revision = UInt64.ofNat (UInt64.size - 1) then (.errLimit, vault)
    else
      match pvArenaSetReadwrite vault.arena protect with
      | (.ok, arena) =>
        match (applyEdit record edit).run.run arena with
        | (.error status, arena) => (status, { vault with arena })
        | (.ok record, arena) => (.ok, { vault with
            arena
            records := vault.records.set index { record with
              revision := record.revision + 1
              updatedMs := now }
            dirty := true
            updatedMs := now })
      | (status, arena) => (status, { vault with arena })

/-- The texts `pv_model_delete` wipes. -/
def Record.secrets {σ : Type} (r : Record σ) : List σ :=
  [r.username, r.password, r.notes] ++ (r.urls ++ (r.tags ++
    r.fields.flatMap fun field => [field.name, field.value]))

/-- What `pv_model_delete` leaves of a record. -/
def tombstone (r : Record Slice) (now : Int64) : Record Slice :=
  { r with
    username := Slice.null
    password := Slice.null
    notes := Slice.null
    urls := []
    tags := []
    fields := []
    flags := r.flags ||| pvRecordDeleted
    revision := r.revision + 1
    updatedMs := now }

/-- `pv_model_delete` of the record at `index`. -/
def pvModelDelete (vault : Vault Hash) (index : Nat) (now : Int64) (protect : Bool) :
    PvStatus × Vault Hash :=
  match vault.records[index]? with
  | none => (.errUsage, vault)
  | some record =>
    if record.flags &&& pvRecordDeleted ≠ 0 then (.errUsage, vault)
    else if record.revision = UInt64.ofNat (UInt64.size - 1) then (.errLimit, vault)
    else if vault.arena.readonly ∧ protect = false then (.errSecureMemory, vault)
    else (.ok, { vault with
      arena := { vault.arena with readonly := false }.wipeAll record.secrets
      records := vault.records.set index (tombstone record now)
      dirty := true
      updatedMs := now })

end Vault

/-! ## The texts of a record -/

/-- All slices of a record. -/
def Record.slices {σ : Type} (r : Record σ) : List σ := r.title :: r.secrets

theorem Record.mem_slices {r : Record σ} {s : σ} :
    s ∈ r.slices ↔ s = r.title ∨ s = r.username ∨ s = r.password ∨ s = r.notes ∨ s ∈ r.urls ∨
      s ∈ r.tags ∨ s ∈ r.fields.flatMap fun field => [field.name, field.value] := by
  simp only [slices, secrets, List.mem_cons, List.mem_append, List.not_mem_nil, or_false, or_assoc]

theorem Record.mem_slices_field {r : Record σ} {field : CustomField σ} (h : field ∈ r.fields) :
    field.name ∈ r.slices ∧ field.value ∈ r.slices := by
  have hmem : ∀ s ∈ [field.name, field.value], s ∈ r.slices := fun s hs =>
    mem_slices.mpr (.inr (.inr (.inr (.inr (.inr (.inr (List.mem_flatMap.mpr ⟨field, h, hs⟩)))))))
  exact ⟨hmem _ (by simp), hmem _ (by simp)⟩

theorem Record.map_congr {f g : σ → τ} {r : Record σ} (h : ∀ s ∈ r.slices, f s = g s) :
    r.map f = r.map g := by
  have hfield : ∀ field ∈ r.fields, field.map f = field.map g := by
    intro field hf
    obtain ⟨hname, hvalue⟩ := mem_slices_field hf
    rw [CustomField.map, CustomField.map, h _ hname, h _ hvalue]
  rw [map, map, h r.title (mem_slices.mpr (by tauto)), h r.username (mem_slices.mpr (by tauto)),
    h r.password (mem_slices.mpr (by tauto)), h r.notes (mem_slices.mpr (by tauto)),
    List.map_congr_left fun s hs => h s (mem_slices.mpr (by tauto)),
    List.map_congr_left fun s (hs : s ∈ r.tags) => h s (mem_slices.mpr (by tauto)),
    List.map_congr_left hfield]

theorem Record.map_map {υ : Type} (f : σ → τ) (g : τ → υ) (r : Record σ) :
    (r.map f).map g = r.map (g ∘ f) := by
  rw [map, map, map, List.map_map, List.map_map, List.map_map]
  rfl

/-- All slices of the record lie below the cursor. -/
def Arena.Bounds (arena : Arena) (r : Record Slice) : Prop :=
  ∀ s ∈ r.slices, s.off + s.len ≤ arena.used

theorem Arena.Bounds.of_used_le {a b : Arena} (h : a.Bounds r) (hab : a.used ≤ b.used) :
    b.Bounds r :=
  fun s hs => le_trans (h s hs) hab

theorem forall₂_mem_left {β : Type} {R : α → β → Prop} {xs : List α} {ys : List β}
    (h : List.Forall₂ R xs ys) : ∀ x ∈ xs, ∃ y, R x y := by
  induction h with
  | nil => exact List.forall_mem_nil _
  | cons hab _ ih => exact List.forall_mem_cons.mpr ⟨⟨_, hab⟩, ih⟩

theorem Arena.HoldsRecord.bounds {r : Record Bytes} (h : arena.HoldsRecord stored r) :
    arena.Bounds stored := by
  intro s hs
  rcases Record.mem_slices.mp hs with rfl | rfl | rfl | rfl | hs | hs | hs
  · exact h.title.below
  · exact h.username.below
  · exact h.password.below
  · exact h.notes.below
  · obtain ⟨_, hheld⟩ := forall₂_mem_left h.urls s hs
    exact hheld.below
  · obtain ⟨_, hheld⟩ := forall₂_mem_left h.tags s hs
    exact hheld.below
  · obtain ⟨field, hf, hs⟩ := List.mem_flatMap.mp hs
    obtain ⟨_, hheld⟩ := forall₂_mem_left h.fields field hf
    rcases List.mem_cons.mp hs with rfl | hs
    · exact hheld.name.below
    · rw [List.mem_singleton.mp hs]
      exact hheld.value.below

/-- A slice below the cursor reads as many bytes as it says. -/
theorem Arena.length_deref (h : s.off + s.len ≤ arena.used) :
    (arena.deref s).length = s.len := by
  rw [deref, length_slice]
  rw [arena.base.length_eq]
  exact le_trans h arena.used_le

theorem Arena.Bounds.lengths_eq (h : arena.Bounds r) :
    (r.map arena.deref).lengths = r.map Slice.len := by
  rw [Record.lengths, Record.map_map]
  exact Record.map_congr fun s hs => arena.length_deref (h s hs)

theorem Arena.HoldsRecord.lengths_eq {r : Record Bytes} (h : arena.HoldsRecord stored r) :
    stored.map Slice.len = r.lengths := by
  rw [← h.map_deref, h.bounds.lengths_eq]

/-! ## What an edit does to the layout -/

/-- The requests of an edit. -/
def Edit.requests : Edit → List Request
  | .favorite => []
  | .text _ value => textRequests value.length
  | .list _ value => listRequests (value.items.map List.length)

/-- The lengths of the record after the edit. -/
def Edit.onLengths (r : Record Nat) : Edit → Record Nat
  | .favorite => r
  | .text slot value => slot.set r value.length
  | .list slot value => slot.set r (value.items.map List.length)

theorem TextSlot.map_set (slot : TextSlot) (f : σ → τ) (r : Record σ) (s : σ) :
    (slot.set r s).map f = slot.set (r.map f) (f s) := by
  cases slot <;> rfl

theorem ListSlot.map_set (slot : ListSlot) (f : σ → τ) (r : Record σ) (ss : List σ) :
    (slot.set r ss).map f = slot.set (r.map f) (ss.map f) := by
  cases slot <;> rfl

theorem TextSlot.slices_set {slot : TextSlot} (h : t ∈ (slot.set r s).slices) :
    t ∈ r.slices ∨ t = s := by
  rw [Record.mem_slices] at h ⊢
  cases slot <;> simp only [set] at h <;> tauto

theorem ListSlot.slices_set {slot : ListSlot} (h : t ∈ (slot.set r ss).slices) :
    t ∈ r.slices ∨ t ∈ ss := by
  rw [Record.mem_slices] at h ⊢
  cases slot <;> simp only [set] at h <;> tauto

/-- A computation followed by wiping. -/
theorem wiping_ok {r : α}
    (h : (do let r ← x; wipeAll ss; pure r : ArenaM α).run.run arena = (.ok r, arena')) :
    ∃ mid, x.run.run arena = (.ok r, mid) ∧ arena' = mid.wipeAll ss := by
  rw [run_bind] at h
  rcases hx : x.run.run arena with ⟨status | r', mid⟩
  · rw [hx] at h
    cases h
  · rw [hx] at h
    cases h
    exact ⟨mid, rfl, rfl⟩

theorem wiping_error
    (h : (do let r ← x; wipeAll ss; pure r : ArenaM α).run.run arena = (.error status, arena')) :
    x.run.run arena = (.error status, arena') := by
  rw [run_bind] at h
  rcases hx : x.run.run arena with ⟨status' | r, mid⟩
  · rw [hx] at h
    exact h
  · rw [hx] at h
    cases h

theorem pvArenaCopy_error (hw : arena.readonly = false)
    (h : (pvArenaCopy data maxLen).run.run arena = (.error status, arena')) :
    status = .errLimit := by
  by_cases hlen : data.length ≤ maxLen
  · exact ((fills_pvArenaCopy hlen).error hw h).1
  · rw [pvArenaCopy, if_pos (Nat.lt_of_not_le hlen)] at h
    cases h
    rfl

theorem pvArenaCopy_le (h : (pvArenaCopy data maxLen).run.run arena = (.ok s, arena')) :
    data.length ≤ maxLen := by
  by_contra hlen
  rw [pvArenaCopy, if_pos (Nat.lt_of_not_le hlen)] at h
  cases h

theorem copyItems_eq {items : List Bytes} (h : items.length ≤ pvMaxCollectionItems)
    (maximum : Nat) : copyItems items maximum = copySlices items maximum := by
  rw [copyItems, copySlices, copyArray]
  by_cases hempty : items.length = 0
  · rw [if_neg (by omega), if_pos hempty]
  · rw [if_pos (by omega), if_neg hempty, if_neg (Nat.not_lt.mpr h)]

theorem fills_copyItems {maximum : Nat} (value : CsvItems maximum) :
    Fills (copyItems value.items maximum) (listRequests (value.items.map List.length))
      fun ss arena => List.Forall₂ arena.Holds ss value.items := by
  rw [copyItems_eq value.length_le]
  exact (fills_copySlices value.length_le value.each_le).post fun _ _ h => h.1

/-- The effect of a successful edit on a record and on the arena. -/
structure Applied (record : Record Slice) (edit : Edit) (arena : Arena) (record' : Record Slice)
    (arena' : Arena) : Prop where
  capacity_eq : arena'.capacity = arena.capacity
  used_eq : arena'.used = placeAll arena.used edit.requests
  id_eq : record'.id = record.id
  requests_eq : recordRequests (record'.map Slice.len) =
    recordRequests (edit.onLengths (record.map Slice.len))
  slices : ∀ s ∈ record'.slices, s ∈ record.slices ∨ s.off + s.len ≤ arena'.used

theorem TextSlot.id_set (slot : TextSlot) (r : Record σ) (s : σ) :
    (slot.set r s).id = r.id := by
  cases slot <;> rfl

theorem ListSlot.id_set (slot : ListSlot) (r : Record σ) (ss : List σ) :
    (slot.set r ss).id = r.id := by
  cases slot <;> rfl

variable {edit : Edit}

theorem applyEdit_ok {record' : Record Slice} (hw : arena.readonly = false)
    (h : (applyEdit record edit).run.run arena = (.ok record', arena')) :
    Applied record edit arena record' arena' := by
  cases edit with
  | favorite =>
    obtain ⟨rfl, rfl⟩ : { record with flags := record.flags ^^^ pvRecordFavorite } = record' ∧
        arena = arena' := by
      cases h
      exact ⟨rfl, rfl⟩
    exact ⟨rfl, rfl, rfl, rfl, fun s hs => .inl hs⟩
  | text slot value =>
    rw [applyEdit, run_bind] at h
    rcases hrep : (replaceSlice (slot.get record) value slot.maximum).run.run arena with
      ⟨status | s, fin⟩
    · rw [hrep] at h
      cases h
    · rw [hrep] at h
      cases h
      obtain ⟨mid, hcopy, rfl⟩ := wiping_ok hrep
      obtain ⟨hext, -, hused, hheld⟩ := (fills_pvArenaCopy (pvArenaCopy_le hcopy)).ok hw hcopy
      obtain ⟨hused', hcap', -⟩ := Arena.wipeAll_frame [slot.get record] mid
      refine ⟨hcap'.trans hext.capacity_eq, hused'.trans hused, slot.id_set _ _, ?_, ?_⟩
      · rw [slot.map_set, hheld.len_eq]
        rfl
      · intro t ht
        rcases slot.slices_set ht with ht | rfl
        · exact .inl ht
        · exact .inr (by rw [hused']; exact hheld.below)
  | list slot value =>
    rw [applyEdit, run_bind] at h
    rcases hrep : (replaceList (slot.get record) value.items slot.maximum).run.run arena with
      ⟨status | ss, fin⟩
    · rw [hrep] at h
      cases h
    · rw [hrep] at h
      cases h
      obtain ⟨mid, hcopy, rfl⟩ := wiping_ok hrep
      obtain ⟨hext, -, hused, hheld⟩ := (fills_copyItems value).ok hw hcopy
      obtain ⟨hused', hcap', -⟩ := Arena.wipeAll_frame (slot.get record) mid
      refine ⟨hcap'.trans hext.capacity_eq, hused'.trans hused, slot.id_set _ _, ?_, ?_⟩
      · have hlens : ss.map Slice.len = value.items.map List.length := by
          rw [← map_eq_of_forall₂ (fun _ _ hs => hs.deref_eq) hheld, List.map_map]
          refine List.map_congr_left fun s hs => ?_
          obtain ⟨_, hs⟩ := forall₂_mem_left hheld s hs
          exact (mid.length_deref hs.below).symm
        rw [slot.map_set, hlens]
        rfl
      · intro t ht
        rcases slot.slices_set ht with ht | ht
        · exact .inl ht
        · obtain ⟨_, hs⟩ := forall₂_mem_left hheld t ht
          exact .inr (by rw [hused']; exact hs.below)

/-- A failed edit fails with `PV_ERR_LIMIT`. -/
theorem applyEdit_error (hw : arena.readonly = false)
    (h : (applyEdit record edit).run.run arena = (.error status, arena')) : status = .errLimit := by
  cases edit with
  | favorite => cases h
  | text slot value =>
    rw [applyEdit, run_bind] at h
    rcases hrep : (replaceSlice (slot.get record) value slot.maximum).run.run arena with
      ⟨status' | s, fin⟩
    · rw [hrep] at h
      cases h
      exact pvArenaCopy_error hw (wiping_error hrep)
    · rw [hrep] at h
      cases h
  | list slot value =>
    rw [applyEdit, run_bind] at h
    rcases hrep : (replaceList (slot.get record) value.items slot.maximum).run.run arena with
      ⟨status' | ss, fin⟩
    · rw [hrep] at h
      cases h
      exact ((fills_copyItems value).error hw (wiping_error hrep)).1
    · rw [hrep] at h
      cases h

end PVault
