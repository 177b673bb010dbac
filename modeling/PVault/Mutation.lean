import PVault.Intact
import PVault.Regions

/-!
# Mutations seen from the arena (`src/model.c`, `src/cli.c`)

Two things a user relies on when a record is changed. A deletion leaves no text behind:
the bytes of the secrets of the record are zero, everything else is as before, and the
payload says no more about them. What is as before includes the arrays of the lists, in which
the addresses and lengths of the wiped texts stay. And a change that fails has changed nothing: new
values are copied behind everything else before an old one is wiped, so a failed copy
leaves all of the old bytes in place.

* `deletion_erases_secrets` — the first, for two vaults that differ in those secrets.
* `deleted_tag_keeps_length` — the length of a deleted tag is still in the arena.
* `failed_mutation_keeps_records` — the second.
-/

namespace PVault

open Binary Bump

/-! ## Deleting -/

/-- A wiped slice reads zeros. -/
theorem Arena.wipe_deref_self (arena : Arena) {s : Slice}
    (h : s.len = 0 ∨ s.off + s.len ≤ arena.used) :
    (arena.wipe s).deref s = List.replicate s.len 0 := by
  rcases h with h | h
  · rw [deref, h, slice_zero]
    rfl
  have hfit : s.off + (List.replicate s.len (0 : UInt8)).length ≤ arena.base.bytes.length := by
    rw [List.length_replicate, arena.base.length_eq]
    exact le_trans h arena.used_le
  rw [deref, wipe]
  dsimp only
  rw [Block.bytes_overwrite (by rwa [arena.base.length_eq] at hfit)]
  simpa using slice_splice_self hfit

/-- Wiping slices that are apart zeroes each of them. -/
theorem Arena.wipeAll_deref_mem {ss : List Slice} (hapart : ss.Pairwise Slice.Apart) :
    ∀ arena : Arena, (∀ s ∈ ss, s.len = 0 ∨ s.off + s.len ≤ arena.used) →
      ∀ s ∈ ss, (arena.wipeAll ss).deref s = List.replicate s.len 0 := by
  induction ss with
  | nil => exact fun _ _ => List.forall_mem_nil _
  | cons t ss ih =>
    intro arena hbounds
    obtain ⟨hfirst, hrest⟩ := List.pairwise_cons.mp hapart
    refine List.forall_mem_cons.mpr ⟨?_, fun s hs => ?_⟩
    · rw [wipeAll_cons, wipeAll_deref ss _ hfirst]
      exact arena.wipe_deref_self (hbounds t List.mem_cons_self)
    · exact ih hrest (arena.wipe t) (fun s hs => hbounds s (List.mem_cons_of_mem _ hs)) s hs

section Delete

variable {Hash : Type}
variable {vault vault' : Vault Hash} {index : Nat} {now : Int64} {protect : Bool}

/-- What a deletion does to the memory of a vault: the texts of the secrets of the record are
zero, every other byte, its title and every other record are as before. -/
structure ErasesOne (vault : Vault Hash) (index : Nat) (vault' : Vault Hash) : Prop where
  /-- the texts of the secrets of the record, where they were placed before -/
  zeroed : ∀ record, vault.records[index]? = some record → ∀ s ∈ record.secrets,
    vault'.arena.deref s = List.replicate s.len 0
  /-- the bytes of the arena outside these texts -/
  kept : ∀ record, vault.records[index]? = some record → ∀ s : Slice,
    (∀ t ∈ record.secrets, s.Apart t) → vault'.arena.deref s = vault.arena.deref s
  /-- the title keeps its place and its bytes -/
  title : ∀ record, vault.records[index]? = some record → ∃ record',
    vault'.records[index]? = some record' ∧ record'.title = record.title ∧
      vault'.arena.deref record.title = vault.arena.deref record.title
  /-- the other records keep their places and their bytes -/
  others : ∀ i, i ≠ index → vault'.records[i]? = vault.records[i]? ∧
    vault'.view[i]? = vault.view[i]?

theorem Intact.slices_laid (hinv : Intact vault) {record : Record Slice}
    (hget : vault.records[index]? = some record) :
    Laid 0 vault.arena.used record.slices := by
  have hmem := List.mem_of_getElem? hget
  refine ⟨fun s hs => hinv.laid.within s (List.mem_flatMap.mpr ⟨record, hmem, hs⟩), ?_⟩
  exact (List.pairwise_flatMap.mp hinv.laid.apart).1 record hmem

theorem Intact.erasesOne (hinv : Intact vault)
    (h : pvModelDelete vault index now protect = (.ok, vault')) :
    ErasesOne vault index vault' := by
  rcases pvModelDelete_ok h with ⟨hne, -⟩ | ⟨record, -, hget, -, rfl⟩
  · exact absurd rfl hne
  obtain ⟨hwithin, hapart⟩ := hinv.slices_laid hget
  obtain ⟨htitle, hsecrets⟩ := List.pairwise_cons.mp hapart
  have hsize : index < vault.records.length := (List.getElem?_eq_some_iff.mp hget).1
  refine ⟨?_, ?_, ?_, fun i hi => ⟨List.getElem?_set_ne hi.symm, ?_⟩⟩
  · intro record' hget' s hs
    obtain rfl : record = record' := Option.some.inj (hget.symm.trans hget')
    refine Arena.wipeAll_deref_mem hsecrets { vault.arena with readonly := false } ?_ s hs
    intro t ht
    exact (hwithin t (List.mem_cons_of_mem _ ht)).imp_right And.right
  · intro record' hget' s hs
    obtain rfl : record = record' := Option.some.inj (hget.symm.trans hget')
    exact Arena.wipeAll_deref _ { vault.arena with readonly := false } hs
  · intro record' hget'
    obtain rfl : record = record' := Option.some.inj (hget.symm.trans hget')
    refine ⟨tombstone record now, List.getElem?_set_self hsize, rfl, ?_⟩
    exact Arena.wipeAll_deref _ { vault.arena with readonly := false } htitle
  · show (List.map _ _)[i]? = _
    rw [hinv.view_delete hget, List.getElem?_set_ne hi.symm]

/-- What is left of a record in the payload when it is deleted. -/
def Record.remains (r : Record Bytes) (now : Int64) : Record Bytes :=
  { r with
    username := [], password := [], notes := [], urls := [], tags := [], fields := []
    flags := r.flags ||| pvRecordDeleted
    revision := r.revision + 1
    updatedMs := now }

theorem Intact.payload_delete (hinv : Intact vault) {r : Record Bytes}
    (hr : vault.view[index]? = some r) (h : pvModelDelete vault index now protect = (.ok, vault')) :
    vault'.payload = ⟨vault.generation, vault.deviceId, vault.createdMs, now,
      vault.view.set index (r.remains now)⟩ := by
  rcases pvModelDelete_ok h with ⟨hne, -⟩ | ⟨record, -, hget, -, rfl⟩
  · exact absurd rfl hne
  have hview := hinv.view_delete hget now
  rw [Vault.view, List.getElem?_map, hget, Option.map_some, Option.some.injEq] at hr
  have hremains : (tombstone record now).map vault.arena.deref = r.remains now := by
    subst hr
    simp [tombstone, Record.remains, Record.map, Arena.deref, Slice.null]
  rw [Vault.payload, Vault.view, hview, hremains]

/-- The encoder reads the payload only. -/
theorem pvCborEncode_congr {other : Vault Hash} (h : vault.payload = other.payload) (mem : Bool) :
    pvCborEncode vault mem = pvCborEncode other mem := by
  have hcreated : vault.createdMs = other.createdMs := congrArg Payload.createdMs h
  have hupdated : vault.updatedMs = other.updatedMs := congrArg Payload.updatedMs h
  have hdevice : vault.deviceId = other.deviceId := congrArg Payload.deviceId h
  have hview : vault.view = other.view := congrArg Payload.records h
  rw [pvCborEncode, pvCborEncode, hcreated, hupdated, hdevice, hview, h]

/-- The records of two vaults differ in the secrets of one record only: its user name,
password, notes, URLs, tags and custom fields. -/
def DifferInSecrets (index : Nat) (rs ss : List (Record Bytes)) : Prop :=
  ∃ r s, rs[index]? = some r ∧ ss = rs.set index s ∧
    s = { r with username := s.username, password := s.password, notes := s.notes, urls := s.urls,
                 tags := s.tags, fields := s.fields }

/-- **A deletion erases the texts of the secrets of a record and nothing else**: two vaults that
differ in them only have the same payload afterwards, and in each of them the texts are zero
while the rest is as before. -/
theorem deletion_erases_secrets {vault other vault' other' : Vault Hash} {index : Nat}
    {now : Int64} {protect protect' : Bool} (hvault : Reachable vault) (hother : Reachable other)
    (hgeneration : other.generation = vault.generation) (hdevice : other.deviceId = vault.deviceId)
    (hcreated : other.createdMs = vault.createdMs)
    (hdiffer : DifferInSecrets index vault.view other.view)
    (hdelete : pvModelDelete vault index now protect = (.ok, vault'))
    (hdelete' : pvModelDelete other index now protect' = (.ok, other')) :
    (∀ mem, pvCborEncode vault' mem = pvCborEncode other' mem) ∧
      ErasesOne vault index vault' ∧ ErasesOne other index other' := by
  refine ⟨pvCborEncode_congr ?_, hvault.intact.erasesOne hdelete, hother.intact.erasesOne hdelete'⟩
  obtain ⟨r, s, hr, hview, hs⟩ := hdiffer
  have hsize : index < vault.view.length := (List.getElem?_eq_some_iff.mp hr).1
  have hs' : other.view[index]? = some s := by rw [hview, List.getElem?_set_self hsize]
  have hremains : s.remains now = r.remains now := by rw [hs]; rfl
  rw [hvault.intact.payload_delete hr hdelete, hother.intact.payload_delete hs' hdelete',
    hgeneration, hdevice, hcreated, hview, List.set_set, hremains]

/-- A record with a title, a password and tags. -/
def loginRecord (password : Bytes) (tags : List Bytes) : Record Bytes :=
  { titledRecord with password, tags }

theorem loginRecord_valid (password : Bytes) (tags : List Bytes)
    (h : password.length ≤ pvMaxPassword) (htags : tags.length ≤ pvMaxCollectionItems)
    (htag : ∀ s ∈ tags, s.length ≤ pvMaxTag ∧ textSliceValid s true = true) :
    (loginRecord password tags).Valid :=
  { titledRecord_valid with password_le := h, tags_le := htags, tags_text := htag }

/-- The login is added to a fresh vault, and deleted. -/
theorem exists_login_vault {fresh : Vault Unit}
    (hinit : pvModelInit () [] .allocated .allocated = .ok fresh) {password : Bytes}
    {tags : List Bytes} (hvalid : (loginRecord password tags).Valid)
    (hfit : placeAll (pvInitialRecordCapacity * sizeofRecord) (addRequests 0 pvInitialRecordCapacity
      ((loginRecord password tags).map List.length)) ≤ pvArenaCapacity) :
    ∃ (vault vault' : Vault Unit) (stored : Record Slice), Reachable vault ∧
      vault.generation = fresh.generation ∧ vault.deviceId = fresh.deviceId ∧
      vault.createdMs = fresh.createdMs ∧ vault.records = [stored] ∧
      vault.view = [storedRecord (loginRecord password tags) (Block.ofBytes _ [1]) 5] ∧
      vault.arena.HoldsRecord stored
        (storedRecord (loginRecord password tags) (Block.ofBytes _ [1]) 5) ∧
      pvModelDelete vault 0 6 true = (.ok, vault') := by
  have hfresh := pvModelInit_ok hinit
  have hchoose : chooseId fresh.records (loginRecord password tags) [Block.ofBytes _ [1]] =
      some (.ok (Block.ofBytes _ [1])) := by
    rw [hfresh.records_eq]
    rfl
  rw [← hfresh.used_eq, ← hfresh.array_eq] at hfit
  have hwritable : ¬(fresh.arena.readonly = true ∧ true = false) := by simp
  obtain ⟨vault, hadd, hadded⟩ := (pvModelAddRecord_settled 5 hfresh.capacity_pos
    hvalid (by simp [loginRecord, titledRecord]) hwritable hchoose).1
    (by rw [hfresh.records_eq, hfresh.arena_eq]; exact hfit)
  obtain ⟨stored, hrecords, hheld⟩ := hadded.records_eq
  have hone : vault.records = [stored] := by rw [hrecords, hfresh.records_eq, List.nil_append]
  have hdelete : ∃ vault', pvModelDelete vault 0 6 true = (.ok, vault') := by
    rw [pvModelDelete, hone]
    show ∃ vault', (if stored.flags &&& pvRecordDeleted ≠ 0 then _ else _) = _
    rw [hheld.flags, hheld.revision, if_neg (by simp [storedRecord, loginRecord, titledRecord]),
      if_neg (by simp [storedRecord, loginRecord, titledRecord]), if_neg (by simp)]
    exact ⟨_, rfl⟩
  obtain ⟨vault', hdelete⟩ := hdelete
  refine ⟨vault, vault', stored, (Reachable.init hinit).add (by decide) hadd, ?_, ?_, ?_, hone,
    ?_, hheld, hdelete⟩
  · rw [hadded.rest_eq]
  · rw [hadded.rest_eq]
  · rw [hadded.rest_eq]
  · rw [Vault.view, hone, List.map_singleton, hheld.map_deref]

/-- Two vaults with one login each, under different passwords and tags of different lengths. -/
theorem deletion_erases_secrets_password :
    ∃ vault other vault' other' : Vault Unit, vault.view ≠ other.view ∧
      pvModelDelete vault 0 6 true = (.ok, vault') ∧ pvModelDelete other 0 6 true = (.ok, other') ∧
      (∀ mem, pvCborEncode vault' mem = pvCborEncode other' mem) ∧
      ErasesOne vault 0 vault' ∧ ErasesOne other 0 other' := by
  obtain ⟨fresh, hinit⟩ := pvModelInit_granted () (show ([] : Bytes).length < pathMax by decide)
  obtain ⟨vault, vault', -, hvault, hgen, hdev, hcre, -, hview, -, hdelete⟩ :=
    exists_login_vault hinit (loginRecord_valid [1] [[120]] (by decide) (by decide) (by decide))
      (by decide)
  obtain ⟨other, other', -, hother, hgen', hdev', hcre', -, hview', -, hdelete'⟩ :=
    exists_login_vault hinit (loginRecord_valid [2, 3] [[120, 121]] (by decide) (by decide)
      (by decide)) (by decide)
  refine ⟨vault, other, vault', other', by rw [hview, hview']; decide, hdelete, hdelete', ?_⟩
  refine deletion_erases_secrets hvault hother (hgen'.trans hgen.symm) (hdev'.trans hdev.symm)
    (hcre'.trans hcre.symm) ?_ hdelete hdelete'
  rw [hview, hview']
  exact ⟨_, _, rfl, rfl, rfl⟩

/-- **The length of a deleted tag stays**: the text of the tag is wiped, the entry of the tag
array, with its address and its length, is not. -/
theorem deleted_tag_keeps_length :
    ∃ (vault vault' : Vault Unit) (record : Record Slice) (tag : Slice) (array : Nat),
      Reachable vault ∧ vault.records = [record] ∧ record.tags = [tag] ∧
      vault.arena.deref tag = [120] ∧ vault.arena.deref ⟨array, sizeofSlice⟩ = tag.bytes ∧
      pvModelDelete vault 0 6 true = (.ok, vault') ∧ vault'.arena.deref tag = [0] ∧
      vault'.arena.deref ⟨array, sizeofSlice⟩ = tag.bytes ∧
      tag.bytes.drop 8 = [1, 0, 0, 0, 0, 0, 0, 0] := by
  obtain ⟨fresh, hinit⟩ := pvModelInit_granted () (show ([] : Bytes).length < pathMax by decide)
  obtain ⟨vault, vault', stored, hvault, -, -, -, hone, -, hheld, hdelete⟩ :=
    exists_login_vault hinit (loginRecord_valid [] [[120]] (by decide) (by decide) (by decide))
      (by decide)
  have hget : vault.records[0]? = some stored := by rw [hone]; rfl
  have herased := hvault.intact.erasesOne hdelete
  obtain ⟨tag, hrest, htag, hnil, htags⟩ := List.forall₂_cons_right_iff.mp hheld.tags
  obtain rfl := List.forall₂_nil_right_iff.mp hnil
  obtain ⟨array, -, habove, hentries⟩ := hheld.tagArray
  rw [htags] at habove hentries
  have hentry : vault.arena.deref ⟨array, sizeofSlice⟩ = tag.bytes := by
    rw [Arena.deref, ← tag.length_bytes]
    exact hentries.1
  -- the wiped texts are empty, or lie above the end of the array
  have hapart : ∀ t ∈ stored.secrets, Slice.Apart ⟨array, sizeofSlice⟩ t := by
    have hempty : stored.username.len = 0 ∧ stored.password.len = 0 ∧ stored.notes.len = 0 :=
      ⟨hheld.username.len_eq, hheld.password.len_eq, hheld.notes.len_eq⟩
    have hurls : stored.urls = [] := List.forall₂_nil_right_iff.mp hheld.urls
    have hfields : stored.fields = [] := List.forall₂_nil_right_iff.mp hheld.fields
    intro t ht
    rw [Record.secrets, hurls, htags, hfields] at ht
    simp only [List.cons_append, List.nil_append, List.mem_cons, List.flatMap_nil,
      List.not_mem_nil, or_false] at ht
    rw [Slice.Apart]
    rcases ht with rfl | rfl | rfl | rfl
    · exact .inr (.inl hempty.1)
    · exact .inr (.inl hempty.2.1)
    · exact .inr (.inl hempty.2.2)
    · have := habove t List.mem_cons_self t List.mem_cons_self
      exact .inr (this.imp_right .inl)
  refine ⟨vault, vault', stored, tag, array, hvault, hone, htags, htag.deref_eq, hentry, hdelete, ?_,
    ?_, ?_⟩
  · have hmem : tag ∈ stored.secrets := by simp [Record.secrets, htags]
    rw [herased.zeroed stored hget tag hmem, htag.len_eq]
    rfl
  · rw [herased.kept stored hget _ hapart, hentry]
  · rw [Slice.bytes, List.drop_left' (length_leBytes 8 _), htag.len_eq]
    rfl

end Delete

/-! ## Failing -/

/-- Whatever `x` returns, the bytes below the old cursor are as before, but for the window from
`lo` to `hi`. -/
def OnlyWithin (lo hi : Nat) {α : Type} (x : ArenaM α) : Prop :=
  ∀ arena arena' result, hi ≤ arena.used → x.run.run arena = (result, arena') →
    arena.ExtendsBut lo hi arena'

/-- Whatever `x` returns, the bytes below the old cursor are as before. -/
abbrev OnlyExtends {α : Type} (x : ArenaM α) : Prop := OnlyWithin 0 0 x

section OnlyWithin

variable {lo hi : Nat} {α β : Type}

theorem onlyWithin_pure (r : α) : OnlyWithin lo hi (pure r : ArenaM α) := by
  intro arena arena' result _ h
  cases h
  exact .refl arena

theorem onlyWithin_throw (status : PvStatus) : OnlyWithin lo hi (throw status : ArenaM α) := by
  intro arena arena' result _ h
  cases h
  exact .refl arena

theorem OnlyWithin.bind {x : ArenaM α} {f : α → ArenaM β} (hx : OnlyWithin lo hi x)
    (hf : ∀ r, OnlyWithin lo hi (f r)) : OnlyWithin lo hi (x >>= f) := by
  intro arena arena' result hhi h
  rw [run_bind] at h
  rcases hrun : x.run.run arena with ⟨status | r, mid⟩
  · rw [hrun] at h
    cases h
    exact hx _ _ _ hhi hrun
  · rw [hrun] at h
    have hmid := hx _ _ _ hhi hrun
    exact hmid.trans (hf r _ _ _ (le_trans hhi hmid.used_le) h)

theorem onlyWithin_writeAt {off : Nat} {data : Bytes} (hlo : lo ≤ off)
    (hhi : off + data.length ≤ hi) : OnlyWithin lo hi (writeAt off data) := by
  intro arena arena' result _ h
  cases h
  exact ⟨rfl, le_refl _, fun o l _ hout =>
    Block.slice_overwrite_disjoint _ _ (hout.imp (le_trans · hlo) (le_trans hhi))⟩

/-- What goes to a region that was just handed out leaves everything else alone. -/
theorem onlyExtends_region {size : Nat} {f : Nat → ArenaM β}
    (hf : ∀ off, OnlyWithin off (off + size) (f off)) : OnlyExtends (allocOrLimit size 8 >>= f) := by
  intro arena arena' result _ h
  rw [run_bind, run_allocOrLimit] at h
  rcases halloc : pvArenaAlloc arena size 8 with _ | ⟨off, mid⟩
  · rw [halloc] at h
    cases h
    exact .refl arena
  · rw [halloc] at h
    obtain ⟨-, -, -, rfl, hused, hext⟩ := pvArenaAlloc_some (by decide) halloc
    have hrest := hf _ mid _ _ (le_of_eq hused) h
    refine ⟨hrest.capacity_eq.trans hext.capacity_eq, le_trans hext.used_le hrest.used_le, ?_⟩
    intro o l hle hout
    have hlow := le_trans hle (le_alignUp (show 0 < 8 by decide) arena.used)
    rw [hrest.outside o l (le_trans hle hext.used_le) (.inl hlow), hext.outside o l hle hout]

/-- A copy goes behind everything else, or nowhere. -/
theorem onlyWithin_pvArenaCopy (data : Bytes) (maxLen : Nat) :
    OnlyWithin lo hi (pvArenaCopy data maxLen) := by
  intro arena arena' result hhi h
  by_cases hlen : data.length ≤ maxLen
  swap
  · rw [pvArenaCopy, if_pos (not_le.mp hlen)] at h
    cases h
    exact .refl arena
  have hext : arena.Extends arena' := by
    cases hw : arena.readonly with
    | false =>
      rcases result with status | r
      · exact ((fills_pvArenaCopy hlen).error hw h).2
      · exact ((fills_pvArenaCopy hlen).ok hw h).1
    | true =>
      have hnone : pvArenaAlloc arena (data.length + 1) 1 = none := by
        rw [pvArenaAlloc, if_pos (.inl hw)]
      rw [pvArenaCopy, if_neg (not_lt.mpr hlen)] at h
      split at h
      · cases h
        exact .refl arena
      · rw [run_bind, run_allocOrLimit, hnone] at h
        cases h
        exact .refl arena
  exact ⟨hext.capacity_eq, hext.used_le, fun o l hle _ => hext.below o l hle⟩

theorem onlyWithin_copySlice {entry : Nat} (maxLen : Nat) (data : Bytes) (hlo : lo ≤ entry)
    (hhi : entry + sizeofSlice ≤ hi) : OnlyWithin lo hi (copySlice maxLen entry data) :=
  (onlyWithin_pvArenaCopy _ _).bind fun item =>
    (onlyWithin_writeAt hlo (by rw [item.length_bytes]; exact hhi)).bind fun _ => onlyWithin_pure _

/-- The loop stays within its array when every round stays within its entry. -/
theorem onlyWithin_copyEach {size : Nat} {copy : Nat → α → ArenaM β}
    (h : ∀ entry x, lo ≤ entry → entry + size ≤ hi → OnlyWithin lo hi (copy entry x))
    (source : List α) : ∀ entry, lo ≤ entry → entry + source.length * size ≤ hi →
      OnlyWithin lo hi (copyEach size copy entry source) := by
  induction source with
  | nil => exact fun _ _ _ => onlyWithin_pure []
  | cons x rest ih =>
    intro entry hlo hhi
    rw [List.length_cons, Nat.succ_mul] at hhi
    exact (h entry x hlo (by omega)).bind fun item =>
      (ih (entry + size) (by omega) (by omega)).bind fun items => onlyWithin_pure (item :: items)

end OnlyWithin

theorem onlyExtends_copyArray {α β : Type} {size : Nat} {copy : Nat → α → ArenaM β}
    (h : ∀ {lo hi} entry x, lo ≤ entry → entry + size ≤ hi → OnlyWithin lo hi (copy entry x))
    (source : List α) : OnlyExtends (copyArray size copy source) := by
  rw [copyArray]
  split
  · exact onlyWithin_pure []
  split
  · exact onlyWithin_throw _
  · exact onlyExtends_region fun array => onlyWithin_copyEach h source array (le_refl _) (le_refl _)

theorem onlyExtends_copySlices (source : List Bytes) (maxLen : Nat) :
    OnlyExtends (copySlices source maxLen) :=
  onlyExtends_copyArray (fun _ data => onlyWithin_copySlice maxLen data) source

theorem onlyExtends_copyFields (source : List (CustomField Bytes)) :
    OnlyExtends (copyFields source) := by
  refine onlyExtends_copyArray (fun entry field hlo hhi => ?_) source
  have hsize : sizeofCustomField = 40 ∧ sizeofSlice = 16 := ⟨rfl, rfl⟩
  exact (onlyWithin_copySlice _ _ hlo (by omega)).bind fun name =>
    (onlyWithin_copySlice _ _ (by omega) (by omega)).bind fun value =>
    (onlyWithin_writeAt (by omega) (by rw [length_leBytes]; omega)).bind fun _ => onlyWithin_pure _

theorem onlyExtends_copyRecord (source : Record Bytes) (id : Block pvRecordIdBytes) (now : Int64) :
    OnlyExtends (copyRecord source id now) := by
  refine (onlyWithin_pvArenaCopy _ _).bind fun title => ?_
  split
  · exact onlyWithin_throw _
  · exact (onlyWithin_pvArenaCopy _ _).bind fun _ => (onlyWithin_pvArenaCopy _ _).bind fun _ =>
      (onlyWithin_pvArenaCopy _ _).bind fun _ => (onlyExtends_copySlices _ _).bind fun _ =>
      (onlyExtends_copySlices _ _).bind fun _ => (onlyExtends_copyFields _).bind fun _ =>
      onlyWithin_pure _

theorem onlyExtends_ensureRecordCapacity (recordCount recordCapacity : Nat) :
    OnlyExtends (ensureRecordCapacity recordCount recordCapacity) := by
  rw [ensureRecordCapacity]
  split
  · exact onlyWithin_pure _
  split
  · exact onlyWithin_throw _
  split
  · exact onlyWithin_throw _
  · exact onlyExtends_region fun _ => onlyWithin_pure _

theorem onlyExtends_copyItems (items : List Bytes) (maximum : Nat) :
    OnlyExtends (copyItems items maximum) := by
  rw [copyItems]
  split
  · exact onlyExtends_region fun copies => onlyWithin_copyEach
      (fun _ data => onlyWithin_copySlice maximum data) items copies (le_refl _) (le_refl _)
  · exact onlyWithin_pure _

/-- `replace_slice` wipes the old text only after the new one is in place. -/
theorem replaceSlice_error {destination : Slice} {value : Bytes} {maximum : Nat}
    {arena arena' : Arena} {status : PvStatus}
    (h : (replaceSlice destination value maximum).run.run arena = (.error status, arena')) :
    arena.Extends arena' :=
  onlyWithin_pvArenaCopy value maximum _ _ _ (Nat.zero_le _) (wiping_error h)

/-- The old list is wiped only after every item of the new one is in place. -/
theorem replaceList_error {destination : List Slice} {items : List Bytes} {maximum : Nat}
    {arena arena' : Arena} {status : PvStatus}
    (h : (replaceList destination items maximum).run.run arena = (.error status, arena')) :
    arena.Extends arena' :=
  onlyExtends_copyItems items maximum _ _ _ (Nat.zero_le _) (wiping_error h)

section Fail

variable {Hash : Type}
variable {vault : Vault Hash} {status : PvStatus}

/-- Every text of the vault lies in the part of the arena that has been handed out. -/
def Vault.Placed (vault : Vault Hash) : Prop :=
  ∀ s ∈ vault.slices, s.len = 0 ∨ s.off + s.len ≤ vault.arena.used

/-- Nothing of the vault has changed but the free part of its arena. -/
structure KeepsRecords (vault vault' : Vault Hash) : Prop where
  records_eq : vault'.records = vault.records
  /-- the records with all their contents -/
  view_eq : vault'.view = vault.view
  generation_eq : vault'.generation = vault.generation
  createdMs_eq : vault'.createdMs = vault.createdMs
  updatedMs_eq : vault'.updatedMs = vault.updatedMs
  dirty_eq : vault'.dirty = vault.dirty
  /-- no byte that was in use has been overwritten -/
  kept : vault.arena.Extends vault'.arena

theorem KeepsRecords.of_extends (hplaced : vault.Placed) {arena : Arena}
    (harena : vault.arena.Extends arena) (recordCapacity : Nat) :
    KeepsRecords vault { vault with arena, recordCapacity } := by
  refine ⟨rfl, ?_, rfl, rfl, rfl, rfl, harena⟩
  refine List.map_congr_left fun r hr => Record.map_congr fun s hs => ?_
  rcases hplaced s (List.mem_flatMap.mpr ⟨r, hr, hs⟩) with hempty | hbelow
  · rw [Arena.deref, Arena.deref, hempty, slice_zero, slice_zero]
  · exact harena.below _ _ hbelow

theorem pvModelAddRecord_failed {vault' : Vault Hash} {source : Record Bytes} {now : Int64}
    {draws : List (Block pvRecordIdBytes)} {protect : Bool} (hplaced : vault.Placed)
    (h : pvModelAddRecord vault source now draws protect = some (status, vault'))
    (hstatus : status ≠ .ok) : KeepsRecords vault vault' := by
  have hsame : KeepsRecords vault vault := .of_extends hplaced (.refl _) vault.recordCapacity
  have hwritable := vault.arena.extends_readonly false
  rw [pvModelAddRecord] at h
  split at h
  · cases h
    exact hsame
  split at h
  · cases h
    exact hsame
  split at h
  · cases h
    exact hsame
  dsimp only at h
  rcases hgrow : (ensureRecordCapacity vault.records.length vault.recordCapacity).run.run
    { vault.arena with readonly := false } with ⟨status' | recordCapacity, arena⟩
  · rw [hgrow] at h
    cases h
    exact .of_extends hplaced (hwritable.trans
      (onlyExtends_ensureRecordCapacity _ _ _ _ _ (Nat.zero_le _) hgrow)) vault.recordCapacity
  have hgrown := hwritable.trans (onlyExtends_ensureRecordCapacity _ _ _ _ _ (Nat.zero_le _) hgrow)
  rw [hgrow] at h
  dsimp only at h
  rcases hchoose : chooseId vault.records source draws with _ | status' | id
  · rw [hchoose] at h
    cases h
  · rw [hchoose] at h
    cases h
    exact .of_extends hplaced hgrown recordCapacity
  rw [hchoose] at h
  dsimp only at h
  rcases hcopy : (copyRecord source id now).run.run arena with ⟨status' | record, arena'⟩
  · rw [hcopy] at h
    cases h
    exact .of_extends hplaced
      (hgrown.trans (onlyExtends_copyRecord _ _ _ _ _ _ (Nat.zero_le _) hcopy)) recordCapacity
  · rw [hcopy] at h
    cases h
    exact absurd rfl hstatus

theorem applyEdit_extends {record : Record Slice} {edit : Edit} {arena arena' : Arena}
    (h : (applyEdit record edit).run.run arena = (.error status, arena')) :
    arena.Extends arena' := by
  cases edit with
  | favorite => cases h
  | text slot value =>
    rw [applyEdit, run_bind] at h
    rcases hrep : (replaceSlice (slot.get record) value slot.maximum).run.run arena with
      ⟨status' | s, fin⟩
    · rw [hrep] at h
      cases h
      exact replaceSlice_error hrep
    · rw [hrep] at h
      cases h
  | list slot value =>
    rw [applyEdit, run_bind] at h
    rcases hrep : (replaceList (slot.get record) value.items slot.maximum).run.run arena with
      ⟨status' | ss, fin⟩
    · rw [hrep] at h
      cases h
      exact replaceList_error hrep
    · rw [hrep] at h
      cases h

theorem commandEdit_failed {vault' : Vault Hash} {index : Nat} {edit : Edit} {now : Int64}
    {protect : Bool} (hplaced : vault.Placed)
    (h : commandEdit vault index edit now protect = (status, vault')) (hstatus : status ≠ .ok) :
    KeepsRecords vault vault' := by
  have hsame : KeepsRecords vault vault := .of_extends hplaced (.refl _) vault.recordCapacity
  rw [commandEdit] at h
  split at h
  · cases h
    exact hsame
  next record hget =>
  split at h
  · cases h
    exact hsame
  cases protect with
  | false =>
    cases h
    exact hsame
  | true =>
    have hwritable := vault.arena.extends_readonly false
    rw [pvArenaSetReadwrite, if_pos rfl] at h
    generalize ({ vault.arena with readonly := false } : Arena) = writable at h hwritable
    dsimp only at h
    rcases hedit : (applyEdit record edit).run.run writable with ⟨status' | record', arena⟩
    · rw [hedit] at h
      cases h
      exact .of_extends hplaced (hwritable.trans (applyEdit_extends hedit)) vault.recordCapacity
    · rw [hedit] at h
      cases h
      exact absurd rfl hstatus

/-- **A failed mutation leaves the records intact**: an addition that fails, wherever its copies
stop, and an edit that fails have changed nothing but the free part of the arena; neither of
the two replacements has wiped an old value. -/
theorem failed_mutation_keeps_records {vault : Vault Hash} (hplaced : vault.Placed) :
    (∀ source now draws protect status vault',
      pvModelAddRecord vault source now draws protect = some (status, vault') → status ≠ .ok →
      KeepsRecords vault vault') ∧
    (∀ index edit now protect status vault',
      commandEdit vault index edit now protect = (status, vault') → status ≠ .ok →
      KeepsRecords vault vault') ∧
    (∀ destination value maximum arena arena' status,
      (replaceSlice destination value maximum).run.run arena = (.error status, arena') →
      arena.Extends arena') ∧
    ∀ destination items maximum arena arena' status,
      (replaceList destination items maximum).run.run arena = (.error status, arena') →
      arena.Extends arena' :=
  ⟨fun _ _ _ _ _ _ h hstatus => pvModelAddRecord_failed hplaced h hstatus,
    fun _ _ _ _ _ _ h hstatus => commandEdit_failed hplaced h hstatus,
    fun _ _ _ _ _ _ h => replaceSlice_error h, fun _ _ _ _ _ _ h => replaceList_error h⟩

/-- A vault with one record, the title `a`, and one free byte. -/
def crampedVault : Vault Unit :=
  { arena := { capacity := 3, base := Block.ofBytes 3 [97, 0, 0], used := 2, readonly := false
               used_le := by decide, capacity_le := by decide }
    vaultId := Block.zero _, deviceId := Block.zero _, generation := 4, createdMs := 1, updatedMs := 2
    records := [{ id := Block.ofBytes _ [1], revision := 1, createdMs := 1, updatedMs := 2, flags := 0
                  title := ⟨0, 1⟩, username := Slice.null, password := Slice.null
                  notes := Slice.null, urls := [], tags := [], fields := [] }]
    recordCapacity := 16, vmk := Block.zero _, sourceHash := (), dirty := false, path := [] }

/-- A second record does not fit. -/
theorem failed_mutation_keeps_records_cramped :
    ∃ vault', pvModelAddRecord crampedVault titledRecord 7 [Block.ofBytes _ [2]] true =
      some (.errLimit, vault') ∧ KeepsRecords crampedVault vault' := by
  have hplaced : crampedVault.Placed := by
    rw [Vault.Placed]
    decide
  have hfull : ∃ vault', pvModelAddRecord crampedVault titledRecord 7 [Block.ofBytes _ [2]] true =
      some (.errLimit, vault') := ⟨_, rfl⟩
  obtain ⟨vault', hadd⟩ := hfull
  exact ⟨vault', hadd, (failed_mutation_keeps_records hplaced).1 _ _ _ _ _ _ hadd (by decide)⟩

end Fail

end PVault
