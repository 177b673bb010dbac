import PVault.Arena
import PVault.Text

/-!
# Records and vaults (`src/model.c`)

A vault keeps its records in the arena: every text of a record is a slice, and the record
array itself is allocated there and doubled when it is full. So are the arrays of its URLs,
tags and custom fields: the lists of a `Record` are what the program reads through them, their
bytes, addresses and lengths included, stand in the arena.

`Record` is generic in its texts, so the same type serves for a source record, whose texts
are byte strings, and for a stored one, whose texts are slices. `Arena.HoldsRecord` connects
the two, and `pvModelAddRecord_ok` says what a successful `pv_model_add_record` did in those
terms: it appended a record that holds the source, moved the cursor past the requests of the
record and, when the array was full, of the doubled array, and disturbed nothing below.
-/

namespace PVault

open Binary Bump

/-! ## Records -/

/-- `pv_custom_field`. -/
structure CustomField (σ : Type) where
  name : σ
  value : σ
  flags : UInt32
  deriving DecidableEq

/-- `pv_record`; the counted arrays are lists. -/
structure Record (σ : Type) where
  id : Block pvRecordIdBytes
  revision : UInt64
  createdMs : Int64
  updatedMs : Int64
  flags : UInt32
  title : σ
  username : σ
  password : σ
  notes : σ
  urls : List σ
  tags : List σ
  fields : List (CustomField σ)
  deriving DecidableEq

/-- Replace the texts of a field. -/
def CustomField.map {σ τ : Type} (f : σ → τ) (field : CustomField σ) : CustomField τ :=
  ⟨f field.name, f field.value, field.flags⟩

/-- Replace the texts of a record. -/
def Record.map {σ τ : Type} (f : σ → τ) (r : Record σ) : Record τ :=
  { r with
    title := f r.title
    username := f r.username
    password := f r.password
    notes := f r.notes
    urls := r.urls.map f
    tags := r.tags.map f
    fields := r.fields.map (CustomField.map f) }

/-- `PV_RECORD_DELETED`. -/
def pvRecordDeleted : UInt32 := 0x01
/-- `PV_RECORD_FAVORITE`. -/
def pvRecordFavorite : UInt32 := 0x02
/-- `PV_FIELD_SECRET`. -/
def pvFieldSecret : UInt32 := 0x01

/-- `sizeof(pv_record)`. -/
def sizeofRecord : Nat := 160
/-- `sizeof(pv_slice)`. -/
def sizeofSlice : Nat := 16
/-- `sizeof(pv_custom_field)`. -/
def sizeofCustomField : Nat := 40

/-- The sixteen bytes of a `pv_slice`: the address, counted from the base of the arena, and the
length. -/
def Slice.bytes (s : Slice) : Bytes := leBytes 8 s.off ++ leBytes 8 s.len

/-- The bytes of a `pv_custom_field`, up to the padding. -/
def CustomField.bytes (field : CustomField Slice) : Bytes :=
  field.name.bytes ++ field.value.bytes ++ leBytes 4 field.flags.toNat

/-! ## Validation -/

/-- `text_slice_valid`. -/
def textSliceValid (s : Bytes) (allowEmpty : Bool) : Bool :=
  (allowEmpty || decide (0 < s.length)) && pvUtf8Valid s

/-- A loop that stops at the first item whose check fails. -/
def firstFailure {α : Type} (check : α → PvStatus) : List α → PvStatus
  | [] => .ok
  | x :: xs => if check x = .ok then firstFailure check xs else check x

/-- The check of a URL or a tag. -/
def validateText (maxLen : Nat) (s : Bytes) : PvStatus :=
  if s.length > maxLen then .errLimit
  else if textSliceValid s true = false then .errFormat
  else .ok

/-- The check of a custom field. -/
def validateField (field : CustomField Bytes) : PvStatus :=
  if field.name.length > pvMaxFieldName ∨ field.value.length > pvMaxFieldValue then .errLimit
  else if textSliceValid field.name false = false ∨ field.flags &&& ~~~pvFieldSecret ≠ 0 then
    .errFormat
  else .ok

/-- `validate_record_fields`. -/
def validateRecordFields (record : Record Bytes) : PvStatus :=
  if record.title.length > pvMaxTitle ∨ record.username.length > pvMaxUsername ∨
      record.password.length > pvMaxPassword ∨ record.notes.length > pvMaxNotes ∨
      record.urls.length > pvMaxCollectionItems ∨ record.tags.length > pvMaxCollectionItems ∨
      record.fields.length > pvMaxCollectionItems then
    .errLimit
  else if record.createdMs < 0 ∨ record.updatedMs < 0 ∨
      record.flags &&& ~~~(pvRecordDeleted ||| pvRecordFavorite) ≠ 0 ∨
      textSliceValid record.title false = false ∨ textSliceValid record.username true = false ∨
      textSliceValid record.notes true = false then
    .errFormat
  else if firstFailure (validateText pvMaxUrl) record.urls ≠ .ok then
    firstFailure (validateText pvMaxUrl) record.urls
  else if firstFailure (validateText pvMaxTag) record.tags ≠ .ok then
    firstFailure (validateText pvMaxTag) record.tags
  else
    firstFailure validateField record.fields

/-- `pv_model_validate_record`. -/
def pvModelValidateRecord (record : Record Bytes) : PvStatus :=
  if validateRecordFields record ≠ .ok then validateRecordFields record
  else if record.revision = 0 ∨ bytesAllZero record.id.bytes then .errFormat
  else .ok

/-- What the fields of an accepted custom field satisfy. -/
structure CustomField.Valid (field : CustomField Bytes) : Prop where
  name_le : field.name.length ≤ pvMaxFieldName
  value_le : field.value.length ≤ pvMaxFieldValue
  name_text : textSliceValid field.name false = true
  flags_known : field.flags &&& ~~~pvFieldSecret = 0

/-- What the fields of an accepted record satisfy. -/
structure Record.Valid (record : Record Bytes) : Prop where
  title_le : record.title.length ≤ pvMaxTitle
  username_le : record.username.length ≤ pvMaxUsername
  password_le : record.password.length ≤ pvMaxPassword
  notes_le : record.notes.length ≤ pvMaxNotes
  urls_le : record.urls.length ≤ pvMaxCollectionItems
  tags_le : record.tags.length ≤ pvMaxCollectionItems
  fields_le : record.fields.length ≤ pvMaxCollectionItems
  created_nonneg : 0 ≤ record.createdMs
  updated_nonneg : 0 ≤ record.updatedMs
  flags_known : record.flags &&& ~~~(pvRecordDeleted ||| pvRecordFavorite) = 0
  title_text : textSliceValid record.title false = true
  username_text : textSliceValid record.username true = true
  notes_text : textSliceValid record.notes true = true
  urls_text : ∀ s ∈ record.urls, s.length ≤ pvMaxUrl ∧ textSliceValid s true = true
  tags_text : ∀ s ∈ record.tags, s.length ≤ pvMaxTag ∧ textSliceValid s true = true
  fields_valid : ∀ field ∈ record.fields, field.Valid

theorem firstFailure_ok {α : Type} {check : α → PvStatus} {xs : List α} :
    firstFailure check xs = .ok ↔ ∀ x ∈ xs, check x = .ok := by
  induction xs with
  | nil => simp [firstFailure]
  | cons x xs ih =>
    rw [firstFailure, List.forall_mem_cons]
    by_cases hx : check x = .ok
    · rw [if_pos hx, ih]
      simp [hx]
    · rw [if_neg hx]
      simp [hx]

theorem validateText_ok {maxLen : Nat} {s : Bytes} :
    validateText maxLen s = .ok ↔ s.length ≤ maxLen ∧ textSliceValid s true = true := by
  rw [validateText]
  split_ifs with h1 h2
  · simp [h1]
  · simp [h2]
  · simp at h2
    simp [h2, Nat.not_lt.mp h1]

theorem validateField_ok {field : CustomField Bytes} :
    validateField field = .ok ↔ field.Valid := by
  rw [validateField]
  split_ifs with h1 h2
  · refine ⟨fun h => (nomatch h), fun h => ?_⟩
    have := h.name_le
    have := h.value_le
    omega
  · refine ⟨fun h => (nomatch h), fun h => ?_⟩
    rcases h2 with h2 | h2
    · rw [h.name_text] at h2
      cases h2
    · exact absurd h.flags_known h2
  · simp only [not_or, Nat.not_lt, not_not, Bool.not_eq_false] at h1 h2
    exact ⟨fun _ => ⟨h1.1, h1.2, h2.1, h2.2⟩, fun _ => rfl⟩

/-- The validation accepts exactly the valid records. -/
theorem validateRecordFields_ok {record : Record Bytes} :
    validateRecordFields record = .ok ↔ record.Valid := by
  rw [validateRecordFields]
  split_ifs with h1 h2 h3 h4
  · refine ⟨fun h => (nomatch h), fun h => ?_⟩
    have := h.title_le
    have := h.username_le
    have := h.password_le
    have := h.notes_le
    have := h.urls_le
    have := h.tags_le
    have := h.fields_le
    omega
  · refine ⟨fun h => (nomatch h), fun h => ?_⟩
    rcases h2 with h2 | h2 | h2 | h2 | h2 | h2
    · exact absurd h2 (Int64.not_lt.mpr h.created_nonneg)
    · exact absurd h2 (Int64.not_lt.mpr h.updated_nonneg)
    · exact absurd h.flags_known h2
    · exact absurd h.title_text (by simp [h2])
    · exact absurd h.username_text (by simp [h2])
    · exact absurd h.notes_text (by simp [h2])
  · refine ⟨fun h => absurd h h3, fun h => absurd ?_ h3⟩
    exact firstFailure_ok.mpr fun s hs => validateText_ok.mpr (h.urls_text s hs)
  · refine ⟨fun h => absurd h h4, fun h => absurd ?_ h4⟩
    exact firstFailure_ok.mpr fun s hs => validateText_ok.mpr (h.tags_text s hs)
  · simp only [not_or, Nat.not_lt, not_not, Bool.not_eq_false, Int64.not_lt] at h1 h2 h3 h4
    obtain ⟨t1, t2, t3, t4, t5, t6, t7⟩ := h1
    obtain ⟨c1, c2, c3, c4, c5, c6⟩ := h2
    refine ⟨fun h => ?_, fun h => ?_⟩
    · exact ⟨t1, t2, t3, t4, t5, t6, t7, c1, c2, c3, c4, c5, c6,
        fun s hs => validateText_ok.mp (firstFailure_ok.mp h3 s hs),
        fun s hs => validateText_ok.mp (firstFailure_ok.mp h4 s hs),
        fun f hf => validateField_ok.mp (firstFailure_ok.mp h f hf)⟩
    · exact firstFailure_ok.mpr fun f hf => validateField_ok.mpr (h.fields_valid f hf)

theorem pvModelValidateRecord_ok {record : Record Bytes} :
    pvModelValidateRecord record = .ok ↔
      record.Valid ∧ record.revision ≠ 0 ∧ bytesAllZero record.id.bytes = false := by
  rw [pvModelValidateRecord]
  split_ifs with h1 h2
  · refine ⟨fun h => absurd h h1, fun h => absurd (validateRecordFields_ok.mpr h.1) h1⟩
  · refine ⟨fun h => (nomatch h), fun h => ?_⟩
    rcases h2 with h2 | h2
    · exact absurd h2 h.2.1
    · rw [h.2.2] at h2
      cases h2
  · simp only [not_or, not_not, Bool.not_eq_true] at h1 h2
    exact ⟨fun _ => ⟨validateRecordFields_ok.mp h1, h2.1, h2.2⟩, fun _ => rfl⟩

/-! ## Vaults -/

/-- `pv_vault`, with `Hash` the type of digests. -/
structure Vault (Hash : Type) where
  arena : Arena
  vaultId : Block pvVaultIdBytes
  deviceId : Block pvDeviceIdBytes
  generation : UInt64
  createdMs : Int64
  updatedMs : Int64
  /-- the records, `record_count` of them -/
  records : List (Record Slice)
  recordCapacity : Nat
  vmk : Block pvWrapKeyBytes
  /-- digest of the snapshot the handle is based on -/
  sourceHash : Hash
  dirty : Bool
  /-- the path, a C string -/
  path : Bytes

/-- The records with their texts read from the arena. -/
def Vault.view {Hash : Type} (vault : Vault Hash) : List (Record Bytes) :=
  vault.records.map (Record.map vault.arena.deref)

/-- `PV_INITIAL_RECORD_CAPACITY`. -/
def pvInitialRecordCapacity : Nat := 16

/-- `pv_model_init`, with the answers to its two requests for secret memory. -/
def pvModelInit {Hash : Type} (zeroHash : Hash) (path : Bytes) (arenaMem vmkMem : SecureAlloc) :
    Except PvStatus (Vault Hash) :=
  if path.length ≥ pathMax then .error .errUsage
  else
    match pvArenaInit pvArenaCapacity arenaMem with
    | .error status => .error status
    | .ok arena =>
      match vmkMem with
      | .noMemory => .error .errNomem
      | .notLocked => .error .errSecureMemory
      | .allocated =>
        match pvArenaAlloc arena (pvInitialRecordCapacity * sizeofRecord) 8 with
        | none => .error .errLimit
        | some (_, arena) => .ok
          { arena
            vaultId := Block.zero _
            deviceId := Block.zero _
            generation := 0
            createdMs := 0
            updatedMs := 0
            records := []
            recordCapacity := pvInitialRecordCapacity
            vmk := Block.zero _
            sourceHash := zeroHash
            dirty := false
            path }

theorem pvModelInit_path {Hash : Type} {zeroHash : Hash} {path : Bytes} {arenaMem vmkMem : SecureAlloc}
    {vault : Vault Hash} (h : pvModelInit zeroHash path arenaMem vmkMem = .ok vault) :
    vault.path = path := by
  rw [pvModelInit] at h
  split_ifs at h
  split at h
  · cases h
  split at h
  · cases h
  · cases h
  · split at h
    · cases h
    · cases h
      rfl

/-- `ensure_record_capacity`: the capacity of the record array afterwards. -/
def ensureRecordCapacity (recordCount recordCapacity : Nat) : ArenaM Nat :=
  if recordCount < recordCapacity then pure recordCapacity
  else if recordCapacity ≥ sizeMax / 2 then throw .errLimit
  else
    match pvSizeMul (recordCapacity * 2) sizeofRecord with
    | none => throw .errLimit
    | some bytes => do
      let _ ← allocOrLimit bytes 8
      pure (recordCapacity * 2)

/-- The loop of `copy_slices` and `copy_fields`: every item is copied to its entry. -/
def copyEach {α β : Type} (size : Nat) (copy : Nat → α → ArenaM β) : Nat → List α → ArenaM (List β)
  | _, [] => pure []
  | entry, x :: rest => do
    let item ← copy entry x
    let items ← copyEach size copy (entry + size) rest
    pure (item :: items)

/-- `copy_slices` and `copy_fields`, with the size of an entry and how one is copied. -/
def copyArray {α β : Type} (size : Nat) (copy : Nat → α → ArenaM β) (source : List α) :
    ArenaM (List β) :=
  if source.length = 0 then pure []
  else if source.length > pvMaxCollectionItems then throw .errLimit
  else do
    let items ← allocOrLimit (source.length * size) 8
    copyEach size copy items source

/-- `pv_arena_copy` with its destination, a `pv_slice` in the arena. -/
def copySlice (maxLen entry : Nat) (data : Bytes) : ArenaM Slice := do
  let item ← pvArenaCopy data maxLen
  writeAt entry item.bytes
  pure item

/-- `copy_slices`. -/
def copySlices (source : List Bytes) (maxLen : Nat) : ArenaM (List Slice) :=
  copyArray sizeofSlice (copySlice maxLen) source

/-- One round of `copy_fields`. -/
def copyField (entry : Nat) (field : CustomField Bytes) : ArenaM (CustomField Slice) := do
  let name ← copySlice pvMaxFieldName entry field.name
  let value ← copySlice pvMaxFieldValue (entry + sizeofSlice) field.value
  writeAt (entry + 2 * sizeofSlice) (leBytes 4 field.flags.toNat)
  pure ⟨name, value, field.flags⟩

/-- `copy_fields`. -/
def copyFields (source : List (CustomField Bytes)) : ArenaM (List (CustomField Slice)) :=
  copyArray sizeofCustomField copyField source

/-- The record that `pv_model_add_record` stores for a source: revision zero asks for a
first revision, stamped now where the source has no time of its own. -/
def storedRecord {σ : Type} (source : Record σ) (id : Block pvRecordIdBytes) (now : Int64) :
    Record σ :=
  { source with
    id
    revision := if source.revision = 0 then 1 else source.revision
    createdMs := if source.revision = 0 ∧ source.createdMs = 0 then now else source.createdMs
    updatedMs := if source.revision = 0 ∧ source.updatedMs = 0 then now else source.updatedMs }

/-- The copies of `pv_model_add_record` after the title. -/
def copyAfterTitle (source : Record Bytes) (id : Block pvRecordIdBytes) (now : Int64)
    (title : Slice) : ArenaM (Record Slice) := do
  let username ← pvArenaCopy source.username pvMaxUsername
  let password ← pvArenaCopy source.password pvMaxPassword
  let notes ← pvArenaCopy source.notes pvMaxNotes
  let urls ← copySlices source.urls pvMaxUrl
  let tags ← copySlices source.tags pvMaxTag
  let fields ← copyFields source.fields
  let stored := storedRecord source id now
  pure
    { id := stored.id
      revision := stored.revision
      createdMs := stored.createdMs
      updatedMs := stored.updatedMs
      flags := stored.flags
      title, username, password, notes, urls, tags, fields }

/-- The copying part of `pv_model_add_record`. -/
def copyRecord (source : Record Bytes) (id : Block pvRecordIdBytes) (now : Int64) :
    ArenaM (Record Slice) := do
  let title ← pvArenaCopy source.title pvMaxTitle
  if title.len = 0 then throw .errUsage else copyAfterTitle source id now title

/-- `pv_model_find_id`, over the records of the vault. -/
def pvModelFindId (records : List (Record Slice)) (id : Block pvRecordIdBytes) :
    Option (Record Slice) :=
  records.find? fun r => r.id = id

/-- The `do`-loop that draws an id: the first draw that is neither zero nor taken, or
nothing when the draws run out. -/
def drawId (records : List (Record Slice)) :
    List (Block pvRecordIdBytes) → Option (Block pvRecordIdBytes)
  | [] => none
  | id :: draws =>
    if bytesAllZero id.bytes ∨ (pvModelFindId records id).isSome then drawId records draws
    else some id

/-- The id of a new record: drawn when the source has none, else the source's own. -/
def chooseId (records : List (Record Slice)) (source : Record Bytes)
    (draws : List (Block pvRecordIdBytes)) : Option (Except PvStatus (Block pvRecordIdBytes)) :=
  if bytesAllZero source.id.bytes then (drawId records draws).map .ok
  else if (pvModelFindId records source.id).isSome then some (.error .errExists)
  else some (.ok source.id)

section Vault

variable {Hash : Type}

/-- `pv_model_add_record`: the status and the vault, or nothing while the loop that draws an
id is still looking. `now` is the clock, `draws` the random ids, `protect` what
`sodium_mprotect_readwrite` answers. -/
def pvModelAddRecord (vault : Vault Hash) (source : Record Bytes) (now : Int64)
    (draws : List (Block pvRecordIdBytes)) (protect : Bool) : Option (PvStatus × Vault Hash) :=
  if validateRecordFields source ≠ .ok then
    some (validateRecordFields source, vault)
  else if source.revision ≠ 0 ∧ bytesAllZero source.id.bytes then
    some (.errFormat, vault)
  else if vault.arena.readonly ∧ protect = false then
    some (.errSecureMemory, vault)
  else
    let writable := { vault.arena with readonly := false }
    match (ensureRecordCapacity vault.records.length vault.recordCapacity).run.run writable with
    | (.error status, arena) => some (status, { vault with arena })
    | (.ok recordCapacity, arena) =>
      let vault := { vault with arena, recordCapacity }
      match chooseId vault.records source draws with
      | none => none
      | some (.error status) => some (status, vault)
      | some (.ok id) =>
        match (copyRecord source id now).run.run vault.arena with
        | (.error status, arena) => some (status, { vault with arena })
        | (.ok record, arena) => some (.ok, { vault with
            arena
            records := vault.records ++ [record]
            dirty := true
            updatedMs := now })

end Vault

/-! ## The requests of a record -/

/-- The requests of `copy_slices` for texts of the given lengths. -/
def listRequests (lens : List Nat) : List Request :=
  if lens.length = 0 then []
  else arrayRequest lens.length sizeofSlice :: lens.flatMap textRequests

/-- The requests of `copy_fields`. -/
def fieldRequests (fields : List (CustomField Nat)) : List Request :=
  if fields.length = 0 then []
  else arrayRequest fields.length sizeofCustomField ::
    fields.flatMap fun field => textRequests field.name ++ textRequests field.value

/-- The requests of `pv_model_add_record` for a record whose texts have the given lengths,
in the order of the copies. -/
def recordRequests (r : Record Nat) : List Request :=
  textRequests r.title ++ (textRequests r.username ++ (textRequests r.password ++
    (textRequests r.notes ++ (listRequests r.urls ++ (listRequests r.tags ++
      fieldRequests r.fields)))))

/-- The request of `ensure_record_capacity`. -/
def growRequests (recordCount recordCapacity : Nat) : List Request :=
  if recordCount < recordCapacity then [] else [arrayRequest (recordCapacity * 2) sizeofRecord]

/-- The capacity after `ensure_record_capacity`. -/
def grownCapacity (recordCount recordCapacity : Nat) : Nat :=
  if recordCount < recordCapacity then recordCapacity else recordCapacity * 2

end PVault
