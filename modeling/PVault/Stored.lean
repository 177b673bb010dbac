import PVault.Model
import Mathlib.Data.List.Forall2

/-!
# What the model operations store

The relation between a record as the caller gave it and the record in the arena
(`Arena.HoldsRecord`), and the effect of `pv_model_add_record` in those terms.

Every copying function is put through the judgement `Fills` of `PVault.Arena`, with the
requests the function makes listed by `recordRequests`. The requests depend on the lengths
of the texts only, which is what lets the layout of a vault be computed without its
contents.
-/

namespace PVault

open Binary Bump

variable {a b : Arena} {maxLen : Nat}
variable {stored : Record Slice} {field : CustomField Bytes} {r : Record Bytes} {lo hi : Nat}
  {data : Bytes}

/-! ## Arrays in the arena -/

/-- The entries of an array: their size, their bytes, and the texts they name. -/
structure Entry (β : Type) where
  size : Nat
  bytes : β → Bytes
  texts : β → List Slice
  length_le : ∀ item, (bytes item).length ≤ size

theorem Slice.length_bytes (s : Slice) : s.bytes.length = sizeofSlice := by
  rw [bytes, List.length_append, length_leBytes, length_leBytes]
  rfl

theorem CustomField.length_bytes (field : CustomField Slice) : field.bytes.length = 36 := by
  rw [bytes, List.length_append, List.length_append, Slice.length_bytes, Slice.length_bytes,
    length_leBytes]
  rfl

/-- The entries of a `pv_slice` array. -/
def Slice.entry : Entry Slice := ⟨sizeofSlice, bytes, fun s => [s], fun s => le_of_eq s.length_bytes⟩

/-- The entries of a `pv_custom_field` array. -/
def CustomField.entry : Entry (CustomField Slice) :=
  ⟨sizeofCustomField, bytes, fun field => [field.name, field.value], fun field => by
    rw [field.length_bytes, sizeofCustomField]
    omega⟩

/-- The entries stand in the arena one after the other. -/
def Arena.HoldsEntries {β : Type} (arena : Arena) (e : Entry β) : Nat → List β → Prop
  | _, [] => True
  | entry, item :: items =>
    slice arena.base.bytes entry (e.bytes item).length = e.bytes item ∧
      arena.HoldsEntries e (entry + e.size) items

/-- There is an array with the given entries below the cursor, and the texts they name lie
above its end. -/
def Arena.HoldsArray {β : Type} (arena : Arena) (e : Entry β) (items : List β) : Prop :=
  ∃ array, array + items.length * e.size ≤ arena.used ∧
    (∀ item ∈ items, ∀ s ∈ e.texts item, s.len = 0 ∨ array + items.length * e.size ≤ s.off) ∧
    arena.HoldsEntries e array items

theorem Arena.holdsArray_nil {β : Type} (arena : Arena) (e : Entry β) : arena.HoldsArray e [] :=
  ⟨0, by simp, List.forall_mem_nil _, trivial⟩

theorem Arena.HoldsEntries.extends {β : Type} {e : Entry β} (hab : a.Extends b) (items : List β) :
    ∀ entry, entry + items.length * e.size ≤ a.used →
      a.HoldsEntries e entry items → b.HoldsEntries e entry items := by
  induction items with
  | nil => exact fun _ _ _ => trivial
  | cons item items ih =>
    intro entry hused h
    rw [List.length_cons, Nat.succ_mul] at hused
    have hlen := e.length_le item
    refine ⟨?_, ih _ (by omega) h.2⟩
    rw [hab.below _ _ (by omega)]
    exact h.1

theorem Arena.HoldsArray.extends {β : Type} {e : Entry β} {items : List β}
    (h : a.HoldsArray e items) (hab : a.Extends b) : b.HoldsArray e items := by
  obtain ⟨array, hused, habove, hentries⟩ := h
  exact ⟨array, le_trans hused hab.used_le, habove, hentries.extends hab items array hused⟩

/-! ## Records in the arena -/

/-- The stored field holds the given one. -/
structure Arena.HoldsField (arena : Arena) (stored : CustomField Slice)
    (field : CustomField Bytes) : Prop where
  name : arena.Holds stored.name field.name
  value : arena.Holds stored.value field.value
  flags : stored.flags = field.flags

/-- The stored record holds the given one. -/
structure Arena.HoldsRecord (arena : Arena) (stored : Record Slice) (r : Record Bytes) :
    Prop where
  id : stored.id = r.id
  revision : stored.revision = r.revision
  createdMs : stored.createdMs = r.createdMs
  updatedMs : stored.updatedMs = r.updatedMs
  flags : stored.flags = r.flags
  title : arena.Holds stored.title r.title
  username : arena.Holds stored.username r.username
  password : arena.Holds stored.password r.password
  notes : arena.Holds stored.notes r.notes
  urls : List.Forall₂ arena.Holds stored.urls r.urls
  tags : List.Forall₂ arena.Holds stored.tags r.tags
  fields : List.Forall₂ arena.HoldsField stored.fields r.fields
  urlArray : arena.HoldsArray Slice.entry stored.urls
  tagArray : arena.HoldsArray Slice.entry stored.tags
  fieldArray : arena.HoldsArray CustomField.entry stored.fields

theorem Arena.HoldsField.extends {stored : CustomField Slice} (h : a.HoldsField stored field)
    (hab : a.Extends b) :
    b.HoldsField stored field :=
  ⟨h.name.extends hab, h.value.extends hab, h.flags⟩

theorem Arena.HoldsRecord.extends (h : a.HoldsRecord stored r) (hab : a.Extends b) :
    b.HoldsRecord stored r :=
  { h with
    title := h.title.extends hab
    username := h.username.extends hab
    password := h.password.extends hab
    notes := h.notes.extends hab
    urls := h.urls.imp fun _ _ hs => hs.extends hab
    tags := h.tags.imp fun _ _ hs => hs.extends hab
    fields := h.fields.imp fun _ _ hs => hs.extends hab
    urlArray := h.urlArray.extends hab
    tagArray := h.tagArray.extends hab
    fieldArray := h.fieldArray.extends hab }

theorem map_eq_of_forall₂ {α β : Type} {R : α → β → Prop} {f : α → β}
    (hR : ∀ a b, R a b → f a = b) {xs : List α} {ys : List β} (h : List.Forall₂ R xs ys) :
    xs.map f = ys := by
  induction h with
  | nil => rfl
  | cons hab _ ih => rw [List.map_cons, hR _ _ hab, ih]

/-- Reading a stored record gives the record. -/
theorem Arena.HoldsRecord.map_deref {arena : Arena} (h : arena.HoldsRecord stored r) :
    stored.map arena.deref = r := by
  have hfield : ∀ (s : CustomField Slice) (f : CustomField Bytes), arena.HoldsField s f →
      s.map arena.deref = f := by
    intro s f hsf
    rw [CustomField.map, hsf.name.deref_eq, hsf.value.deref_eq, hsf.flags]
  rw [Record.map, h.title.deref_eq, h.username.deref_eq, h.password.deref_eq, h.notes.deref_eq,
    map_eq_of_forall₂ (fun _ _ hs => hs.deref_eq) h.urls,
    map_eq_of_forall₂ (fun _ _ hs => hs.deref_eq) h.tags, map_eq_of_forall₂ hfield h.fields,
    h.id, h.revision, h.createdMs, h.updatedMs, h.flags]

/-- The vault's records are stored below the cursor and read as `rs`. -/
def Vault.Holds {Hash : Type} (vault : Vault Hash) (rs : List (Record Bytes)) : Prop :=
  List.Forall₂ vault.arena.HoldsRecord vault.records rs

theorem Vault.Holds.view_eq {Hash : Type} {vault : Vault Hash} {rs : List (Record Bytes)}
    (h : vault.Holds rs) : vault.view = rs :=
  map_eq_of_forall₂ (fun _ _ hr => hr.map_deref) h

/-! ## The copying functions -/

/-- How one item is copied to its entry: by the requests `requests`, after which `R` holds of its
texts, which lie above the end of the array, and the entry has the bytes of the item. -/
structure CopiesTo {α β : Type} (e : Entry β) (copy : Nat → α → ArenaM β)
    (requests : α → List Request) (R : Arena → β → α → Prop) (x : α) : Prop where
  fills : ∀ {entry hi : Nat}, entry + e.size ≤ hi →
    FillsBut entry hi (copy entry x) (requests x) fun item arena => R arena item x ∧
      (∀ s ∈ e.texts item, s.len = 0 ∨ hi ≤ s.off) ∧
      slice arena.base.bytes entry (e.bytes item).length = e.bytes item
  stable : ∀ {lo hi : Nat} {a b : Arena} {item : β}, a.ExtendsBut lo hi b →
    (∀ s ∈ e.texts item, s.len = 0 ∨ hi ≤ s.off) → R a item x → R b item x

section CopyArray

variable {α β : Type} {e : Entry β} {copy : Nat → α → ArenaM β} {requests : α → List Request}
  {R : Arena → β → α → Prop}

/-- The loop: the window for the rest of the entries starts behind the one just written. -/
theorem fills_copyEach {hi : Nat} (source : List α)
    (h : ∀ x ∈ source, CopiesTo e copy requests R x) :
    ∀ entry, entry + source.length * e.size ≤ hi →
      FillsBut entry hi (copyEach e.size copy entry source) (source.flatMap requests)
        fun items arena => List.Forall₂ (R arena) items source ∧
          (∀ item ∈ items, ∀ s ∈ e.texts item, s.len = 0 ∨ hi ≤ s.off) ∧
          arena.HoldsEntries e entry items := by
  induction source with
  | nil =>
    intro entry _
    refine (fills_pure _).post fun items arena hitems => ?_
    rw [hitems]
    exact ⟨List.Forall₂.nil, List.forall_mem_nil _, trivial⟩
  | cons x rest ih =>
    intro entry hhi
    obtain ⟨hx, hrest⟩ := List.forall_mem_cons.mp h
    rw [List.length_cons, Nat.succ_mul] at hhi
    have hseq := (hx.fills (show entry + e.size ≤ hi by omega)).bind_from
      (Nat.le_add_right entry e.size)
      (fun item _ _ => (ih hrest (entry + e.size) (by omega)).map (item :: ·))
      (fun item a b hused hab hP => by
        have hentry := Nat.add_le_add_left (e.length_le item) entry
        refine ⟨hx.stable hab hP.2.1 hP.1, hP.2.1, ?_⟩
        rw [hab.outside _ _ (by omega) (.inl hentry)]
        exact hP.2.2)
    rw [List.flatMap_cons]
    refine hseq.post fun items arena hitems => ?_
    obtain ⟨item, ⟨hR, htexts, hentry⟩, items, ⟨hRs, habove, hentries⟩, rfl⟩ := hitems
    exact ⟨List.Forall₂.cons hR hRs, List.forall_mem_cons.mpr ⟨htexts, habove⟩, hentry, hentries⟩

theorem fills_copyArray {source : List α} (hsize : e.size ≠ 0)
    (hcount : source.length ≤ pvMaxCollectionItems)
    (h : ∀ x ∈ source, CopiesTo e copy requests R x) :
    Fills (copyArray e.size copy source)
      (if source.length = 0 then []
        else arrayRequest source.length e.size :: source.flatMap requests)
      fun items arena => List.Forall₂ (R arena) items source ∧ arena.HoldsArray e items := by
  rw [copyArray]
  by_cases hempty : source.length = 0
  · rw [if_pos hempty, if_pos hempty]
    refine (fills_pure _).post fun items arena hitems => ?_
    rw [hitems, List.length_eq_zero_iff.mp hempty]
    exact ⟨List.Forall₂.nil, arena.holdsArray_nil e⟩
  · rw [if_neg hempty, if_neg hempty, if_neg (Nat.not_lt.mpr hcount)]
    refine (fills_region (k := 3) (Nat.mul_ne_zero hempty hsize) (by omega) fun array =>
      fills_copyEach source h array (le_refl _)).post fun items arena hitems => ?_
    obtain ⟨array, hused, hR, habove, hentries⟩ := hitems
    rw [← hR.length_eq] at hused habove
    exact ⟨hR, array, hused, habove, hentries⟩

end CopyArray

/-- A text that is copied to an entry of an array. -/
theorem fills_copySlice {entry : Nat} (hlen : data.length ≤ maxLen) (hlo : lo ≤ entry)
    (hhi : entry + sizeofSlice ≤ hi) :
    FillsBut lo hi (copySlice maxLen entry data) (textRequests data.length) fun item arena =>
      arena.HoldsFrom hi item data ∧
        slice arena.base.bytes entry item.bytes.length = item.bytes := by
  have hseq := (fills_pvArenaCopy_from lo hi hlen).bind
    (fun item _ _ => (fills_writeAt item.bytes hlo (by rw [item.length_bytes]; exact hhi)).map fun _ => item)
    (fun item a b hab hP => hP.extends hab)
  rw [List.append_nil] at hseq
  refine hseq.post fun item arena hitem => ?_
  obtain ⟨item, hheld, -, hwritten, rfl⟩ := hitem
  exact ⟨hheld, hwritten⟩

theorem copiesTo_copySlice (hlen : data.length ≤ maxLen) :
    CopiesTo Slice.entry (copySlice maxLen) (fun data => textRequests data.length) Arena.Holds
      data where
  fills hhi := (fills_copySlice hlen (le_refl _) hhi).post fun _ _ hitem =>
    ⟨hitem.1.toHolds, List.forall_mem_singleton.mpr hitem.1.above, hitem.2⟩
  stable hab habove h :=
    (Arena.HoldsFrom.extends ⟨h, habove _ List.mem_cons_self⟩ hab).toHolds

theorem fills_copySlices {source : List Bytes} (hcount : source.length ≤ pvMaxCollectionItems)
    (h : ∀ s ∈ source, s.length ≤ maxLen) :
    Fills (copySlices source maxLen) (listRequests (source.map List.length))
      fun ss arena => List.Forall₂ arena.Holds ss source ∧ arena.HoldsArray Slice.entry ss := by
  rw [copySlices, listRequests, List.length_map, List.flatMap_map]
  exact fills_copyArray (e := Slice.entry) (by decide) hcount fun s hs => copiesTo_copySlice (h s hs)

/-- An entry that has been written stays while the window starts behind it. -/
theorem Arena.ExtendsBut.entry_eq {entry : Nat} {item : Slice} (hab : a.ExtendsBut lo hi b)
    (hlo : entry + sizeofSlice ≤ lo) (hused : lo ≤ a.used)
    (h : slice a.base.bytes entry item.bytes.length = item.bytes) :
    slice b.base.bytes entry item.bytes.length = item.bytes := by
  rw [← item.length_bytes] at hlo
  rw [hab.outside _ _ (le_trans hlo hused) (.inl hlo)]
  exact h

theorem copiesTo_copyField (hname : field.name.length ≤ pvMaxFieldName)
    (hvalue : field.value.length ≤ pvMaxFieldValue) :
    CopiesTo CustomField.entry copyField
      (fun field => textRequests field.name.length ++ textRequests field.value.length)
      Arena.HoldsField field where
  fills {entry hi} hhi := by
    have hsize : CustomField.entry.size = 40 := rfl
    have hlen : (leBytes 4 field.flags.toNat).length = 4 := length_leBytes _ _
    have hslice : sizeofSlice = 16 := rfl
    -- each window starts behind what has been written of the entry
    have hseq := (fills_copySlice hname (le_refl entry)
        (show entry + sizeofSlice ≤ hi by omega)).bind_from
      (show entry ≤ entry + sizeofSlice by omega)
      (fun name _ _ => (fills_copySlice hvalue (le_refl _) (by omega)).bind_from
        (show _ ≤ entry + 2 * sizeofSlice by omega)
        (fun value _ _ => (fills_writeAt (leBytes 4 field.flags.toNat) (le_refl _)
          (by omega)).map fun _ => CustomField.mk name value field.flags)
        (fun value a b hused hab hP =>
          ⟨hP.1.extends hab, hab.entry_eq (by omega) (by omega) hP.2⟩))
      (fun name a b hused hab hP =>
        ⟨hP.1.extends hab, hab.entry_eq (le_refl _) (by omega) hP.2⟩)
    rw [List.append_nil] at hseq
    refine hseq.post fun item arena hitem => ?_
    obtain ⟨name, ⟨hname, hfirst⟩, value, ⟨hvalue, hsecond⟩, -, hflags, rfl⟩ := hitem
    refine ⟨⟨hname.toHolds, hvalue.toHolds, rfl⟩, ?_, ?_⟩
    · exact List.forall_mem_cons.mpr ⟨hname.above, List.forall_mem_singleton.mpr hvalue.above⟩
    · show slice _ _ (CustomField.bytes _).length = CustomField.bytes _
      rw [CustomField.bytes, List.length_append, List.length_append, ← slice_append_slice,
        ← slice_append_slice, hfirst, name.length_bytes, hsecond, value.length_bytes,
        ← Nat.two_mul, hflags]
  stable hab habove h := by
    have hvalue := habove _ (List.mem_cons_of_mem _ List.mem_cons_self)
    exact ⟨(Arena.HoldsFrom.extends ⟨h.name, habove _ List.mem_cons_self⟩ hab).toHolds,
      (Arena.HoldsFrom.extends ⟨h.value, hvalue⟩ hab).toHolds, h.flags⟩

theorem fills_copyFields {source : List (CustomField Bytes)}
    (hcount : source.length ≤ pvMaxCollectionItems)
    (h : ∀ field ∈ source, field.name.length ≤ pvMaxFieldName ∧
      field.value.length ≤ pvMaxFieldValue) :
    Fills (copyFields source) (fieldRequests (source.map (CustomField.map List.length)))
      fun fs arena => List.Forall₂ arena.HoldsField fs source ∧
        arena.HoldsArray CustomField.entry fs := by
  rw [copyFields, fieldRequests, List.length_map, List.flatMap_map]
  exact fills_copyArray (e := CustomField.entry) (by decide) hcount fun field hfield =>
    copiesTo_copyField (h field hfield).1 (h field hfield).2

theorem length_ne_zero_of_text {s : Bytes} (h : textSliceValid s false = true) : s.length ≠ 0 := by
  simp only [textSliceValid, Bool.false_or, Bool.and_eq_true, decide_eq_true_eq] at h
  exact Nat.pos_iff_ne_zero.mp h.1

/-- Copying the texts after the title. -/
theorem fills_copyAfterTitle {source : Record Bytes} (hvalid : source.Valid)
    (id : Block pvRecordIdBytes) (now : Int64) (title : Slice) :
    Fills (copyAfterTitle source id now title)
      (textRequests source.username.length ++ (textRequests source.password.length ++
        (textRequests source.notes.length ++ (listRequests (source.urls.map List.length) ++
          (listRequests (source.tags.map List.length) ++
            fieldRequests (source.fields.map (CustomField.map List.length)))))))
      fun stored arena => arena.Holds title source.title →
        arena.HoldsRecord stored (storedRecord source id now) := by
  have hfields : ∀ field ∈ source.fields, field.name.length ≤ pvMaxFieldName ∧
      field.value.length ≤ pvMaxFieldValue :=
    fun field hf => ⟨(hvalid.fields_valid field hf).name_le, (hvalid.fields_valid field hf).value_le⟩
  have hurls : ∀ s ∈ source.urls, s.length ≤ pvMaxUrl := fun s hs => (hvalid.urls_text s hs).1
  have htags : ∀ s ∈ source.tags, s.length ≤ pvMaxTag := fun s hs => (hvalid.tags_text s hs).1
  -- what each copy established survives the later ones
  have text : ∀ (data : Bytes) (r : Slice) (a b : Arena), a.Extends b → a.Holds r data →
      b.Holds r data := fun _ _ _ _ hab hP => hP.extends hab
  have list : ∀ (data : List Bytes) (r : List Slice) (a b : Arena), a.Extends b →
      List.Forall₂ a.Holds r data ∧ a.HoldsArray Slice.entry r →
      List.Forall₂ b.Holds r data ∧ b.HoldsArray Slice.entry r :=
    fun _ _ _ _ hab hP => ⟨hP.1.imp fun _ _ hh => hh.extends hab, hP.2.extends hab⟩
  have hseq := (fills_pvArenaCopy hvalid.username_le).bind (fun username _ _ =>
    (fills_pvArenaCopy hvalid.password_le).bind (fun password _ _ =>
      (fills_pvArenaCopy hvalid.notes_le).bind (fun notes _ _ =>
        (fills_copySlices hvalid.urls_le hurls).bind (fun urls _ _ =>
          (fills_copySlices hvalid.tags_le htags).bind (fun tags _ _ =>
            (fills_copyFields hvalid.fields_le hfields).map fun fields =>
              Record.mk id (storedRecord source id now).revision
                (storedRecord source id now).createdMs (storedRecord source id now).updatedMs
                source.flags title username password notes urls tags fields)
            (list _)) (list _)) (text _)) (text _)) (text _)
  refine hseq.post fun stored arena hstored htitle => ?_
  obtain ⟨username, husername, password, hpassword, notes, hnotes, urls, hurls, tags, htags, fields,
    hfields, rfl⟩ := hstored
  exact ⟨rfl, rfl, rfl, rfl, rfl, htitle, husername, hpassword, hnotes, hurls.1, htags.1, hfields.1,
    hurls.2, htags.2, hfields.2⟩

/-- **Copying a valid record** makes the requests of its lengths and stores the record. -/
theorem fills_copyRecord {source : Record Bytes} (hvalid : source.Valid)
    (id : Block pvRecordIdBytes) (now : Int64) :
    Fills (copyRecord source id now) (recordRequests (source.map List.length))
      fun stored arena => arena.HoldsRecord stored (storedRecord source id now) := by
  have hseq := (fills_pvArenaCopy hvalid.title_le).bind (fun title arena htitle =>
      show Fills (if title.len = 0 then throw .errUsage else copyAfterTitle source id now title) _ _ by
    -- a valid title is not empty, so the check after its copy passes
    have hne : title.len ≠ 0 := by
      rw [htitle.len_eq]
      exact length_ne_zero_of_text hvalid.title_text
    rw [if_neg hne]
    exact fills_copyAfterTitle hvalid id now title) (fun _ _ _ hab hP => hP.extends hab)
  refine hseq.post fun stored arena hstored => ?_
  obtain ⟨title, htitle, hrest⟩ := hstored
  exact hrest htitle

/-- **Growing the record array** makes its request when the array is full. -/
theorem fills_ensureRecordCapacity (recordCount : Nat) {recordCapacity : Nat}
    (hpos : 0 < recordCapacity) :
    Fills (ensureRecordCapacity recordCount recordCapacity) (growRequests recordCount recordCapacity)
      fun capacity _ => capacity = grownCapacity recordCount recordCapacity := by
  rw [ensureRecordCapacity, growRequests, grownCapacity]
  by_cases hroom : recordCount < recordCapacity
  · rw [if_pos hroom, if_pos hroom, if_pos hroom]
    exact fills_pure _
  · rw [if_neg hroom, if_neg hroom, if_neg hroom]
    have hmax := sizeMax_eq
    -- a request that overflows `size_t` does not fit the arena either
    have hover : sizeMax < recordCapacity * 2 * sizeofRecord →
        Fills (throw .errLimit : ArenaM Nat) [arrayRequest (recordCapacity * 2) sizeofRecord]
          fun capacity _ => capacity = recordCapacity * 2 := by
      intro hbig arena _ _
      have hcap := arena.capacity_le
      have hbound := pvMaxPlaintext_eq
      refine ⟨fun hfit => ?_, fun _ => ⟨arena, rfl, Arena.ExtendsBut.refl _⟩⟩
      rw [placeAll_cons, placeAll_nil, place, arrayRequest] at hfit
      have : recordCapacity * 2 * sizeofRecord ≤ arena.capacity := le_trans (Nat.le_add_left _ _) hfit
      omega
    by_cases hhalf : recordCapacity ≥ sizeMax / 2
    · rw [if_pos hhalf]
      refine hover ?_
      rw [sizeofRecord]
      omega
    · rw [if_neg hhalf]
      rcases hmul : pvSizeMul (recordCapacity * 2) sizeofRecord with _ | bytes
      · refine hover ?_
        by_contra hle
        rw [pvSizeMul_eq_some.mpr ⟨Nat.not_lt.mp hle, rfl⟩] at hmul
        cases hmul
      · obtain ⟨-, rfl⟩ := pvSizeMul_eq_some.mp hmul
        have hsize : recordCapacity * 2 * sizeofRecord ≠ 0 :=
          Nat.mul_ne_zero (by omega) (by decide)
        refine ((fills_alloc (k := 3) hsize (by omega)).map fun _ => recordCapacity * 2).post
          fun capacity arena h => ?_
        obtain ⟨_, -, hc⟩ := h
        exact hc

/-! ## Adding a record -/

section Add

variable {Hash : Type}
variable {vault vault' : Vault Hash} {now : Int64} {source : Record Bytes}
  {draws : List (Block pvRecordIdBytes)} {protect : Bool}

/-- The requests of one more record. -/
def addRequests (recordCount recordCapacity : Nat) (r : Record Nat) : List Request :=
  growRequests recordCount recordCapacity ++ recordRequests r

/-- `vault'` is `vault` with one more record, which holds `r`. -/
structure Added (vault : Vault Hash) (r : Record Bytes) (now : Int64) (vault' : Vault Hash) :
    Prop where
  records_eq : ∃ stored, vault'.records = vault.records ++ [stored] ∧
    vault'.arena.HoldsRecord stored r
  extends_eq : vault.arena.Extends vault'.arena
  writable : vault'.arena.readonly = false
  used_eq : vault'.arena.used = placeAll vault.arena.used
    (addRequests vault.records.length vault.recordCapacity (r.map List.length))
  rest_eq : vault' = { vault with
    arena := vault'.arena
    records := vault'.records
    recordCapacity := grownCapacity vault.records.length vault.recordCapacity
    dirty := true
    updatedMs := now }

theorem Added.holds {r : Record Bytes} {rs : List (Record Bytes)} (h : Added vault r now vault')
    (hrs : vault.Holds rs) :
    vault'.Holds (rs ++ [r]) := by
  obtain ⟨stored, hrecords, hstored⟩ := h.records_eq
  rw [Vault.Holds, hrecords]
  exact List.rel_append (hrs.imp fun _ _ hr => hr.extends h.extends_eq)
    (List.Forall₂.cons hstored List.Forall₂.nil)

/-- A valid source whose id has been settled: the record is added when its requests fit, and
`PV_ERR_LIMIT` is returned when they do not. -/
theorem pvModelAddRecord_settled (now : Int64) {id : Block pvRecordIdBytes}
    (hpos : 0 < vault.recordCapacity) (hvalid : source.Valid)
    (hid : ¬(source.revision ≠ 0 ∧ bytesAllZero source.id.bytes = true))
    (hw : ¬(vault.arena.readonly = true ∧ protect = false))
    (hchoose : chooseId vault.records source draws = some (.ok id)) :
    (placeAll vault.arena.used (addRequests vault.records.length vault.recordCapacity
        (source.map List.length)) ≤ vault.arena.capacity →
      ∃ vault', pvModelAddRecord vault source now draws protect = some (.ok, vault') ∧
        Added vault (storedRecord source id now) now vault') ∧
    (vault.arena.capacity < placeAll vault.arena.used (addRequests vault.records.length
        vault.recordCapacity (source.map List.length)) →
      ∃ vault', pvModelAddRecord vault source now draws protect = some (.errLimit, vault')) := by
  have hok := validateRecordFields_ok.mpr hvalid
  rw [pvModelAddRecord, if_neg (not_not.mpr hok), if_neg hid, if_neg hw, addRequests, placeAll_append]
  dsimp only
  obtain ⟨hgrow, hfull⟩ := fills_ensureRecordCapacity vault.records.length hpos
    { vault.arena with readonly := false } rfl (Nat.zero_le _)
  dsimp only at hgrow hfull
  by_cases hroom : placeAll vault.arena.used (growRequests vault.records.length vault.recordCapacity) ≤
      vault.arena.capacity
  · obtain ⟨capacity, mid, hrun, hext, hw', hused, rfl⟩ := hgrow hroom
    have hext : vault.arena.Extends mid := ⟨hext.capacity_eq, hext.used_le, hext.outside⟩
    obtain ⟨hcopy, hlimit⟩ := fills_copyRecord hvalid id now mid hw' (Nat.zero_le _)
    rw [hused, hext.capacity_eq] at hcopy hlimit
    rw [hrun]
    dsimp only
    rw [hchoose]
    dsimp only
    refine ⟨fun hfit => ?_, fun hover => ?_⟩
    · obtain ⟨stored, arena', hrun', hext', hw'', hused', hstored⟩ := hcopy hfit
      rw [hrun']
      refine ⟨_, rfl, ⟨stored, rfl, hstored⟩, hext.trans hext', hw'', ?_, rfl⟩
      rw [addRequests, placeAll_append]
      exact hused'
    · obtain ⟨arena', hrun', -⟩ := hlimit hover
      rw [hrun']
      exact ⟨_, rfl⟩
  · obtain ⟨arena', hrun, -⟩ := hfull (Nat.lt_of_not_le hroom)
    rw [hrun]
    refine ⟨fun hfit => absurd (le_trans (le_placeAll _ _) hfit) hroom, fun _ => ⟨_, rfl⟩⟩

theorem chooseId_error {records : List (Record Slice)} {status : PvStatus}
    (h : chooseId records source draws = some (.error status)) : status = .errExists := by
  rw [chooseId] at h
  split_ifs at h
  · rcases hdraw : drawId records draws with _ | id
    · rw [hdraw] at h
      cases h
    · rw [hdraw] at h
      cases h
  · cases h
    rfl
  · cases h

/-- A source whose id is taken, or for which no id has been drawn, is not added. -/
theorem pvModelAddRecord_unsettled (hpos : 0 < vault.recordCapacity)
    (hchoose : ∀ id, chooseId vault.records source draws ≠ some (.ok id)) :
    pvModelAddRecord vault source now draws protect ≠ some (.ok, vault') := by
  intro h
  rw [pvModelAddRecord] at h
  split_ifs at h with hvalid hid hw
  · exact hvalid (Prod.mk.inj (Option.some.inj h)).1
  · cases h
  · cases h
  · dsimp only at h
    obtain ⟨hgrow, hfull⟩ := fills_ensureRecordCapacity vault.records.length hpos
      { vault.arena with readonly := false } rfl (Nat.zero_le _)
    by_cases hroom : placeAll vault.arena.used
        (growRequests vault.records.length vault.recordCapacity) ≤ vault.arena.capacity
    · obtain ⟨capacity, mid, hrun, -⟩ := hgrow hroom
      rw [hrun] at h
      dsimp only at h
      rcases hc : chooseId vault.records source draws with _ | status | id
      · rw [hc] at h
        cases h
      · rw [hc, chooseId_error hc] at h
        cases h
      · exact hchoose id hc
    · obtain ⟨mid, hrun, -⟩ := hfull (Nat.lt_of_not_le hroom)
      rw [hrun] at h
      cases h

/-- **What a successful `pv_model_add_record` did.** -/
theorem pvModelAddRecord_ok (hpos : 0 < vault.recordCapacity)
    (h : pvModelAddRecord vault source now draws protect = some (.ok, vault')) :
    source.Valid ∧ ¬(source.revision ≠ 0 ∧ bytesAllZero source.id.bytes = true) ∧
    ∃ id, chooseId vault.records source draws = some (.ok id) ∧
      Added vault (storedRecord source id now) now vault' := by
  have hvalid : source.Valid := by
    by_contra hnot
    rw [← validateRecordFields_ok] at hnot
    rw [pvModelAddRecord, if_pos hnot] at h
    exact hnot (Prod.mk.inj (Option.some.inj h)).1
  have hok := validateRecordFields_ok.mpr hvalid
  have hid : ¬(source.revision ≠ 0 ∧ bytesAllZero source.id.bytes = true) := by
    intro hid
    rw [pvModelAddRecord, if_neg (not_not.mpr hok), if_pos hid] at h
    cases h
  have hw : ¬(vault.arena.readonly = true ∧ protect = false) := by
    intro hw
    rw [pvModelAddRecord, if_neg (not_not.mpr hok), if_neg hid, if_pos hw] at h
    cases h
  have hchosen : ∃ id, chooseId vault.records source draws = some (.ok id) := by
    by_contra hnone
    exact pvModelAddRecord_unsettled hpos (fun id hc => hnone ⟨id, hc⟩) h
  obtain ⟨id, hchoose⟩ := hchosen
  obtain ⟨hfits, hover⟩ := pvModelAddRecord_settled now hpos hvalid hid hw hchoose
  refine ⟨hvalid, hid, id, hchoose, ?_⟩
  by_cases hfit : placeAll vault.arena.used (addRequests vault.records.length vault.recordCapacity
      (source.map List.length)) ≤ vault.arena.capacity
  · obtain ⟨vault'', hadd, hadded⟩ := hfits hfit
    rw [h] at hadd
    obtain ⟨-, rfl⟩ := Prod.mk.inj (Option.some.inj hadd)
    exact hadded
  · obtain ⟨vault'', hadd⟩ := hover (Nat.lt_of_not_le hfit)
    rw [h] at hadd
    cases hadd

end Add

end PVault
