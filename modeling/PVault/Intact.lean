import PVault.Rebuild

/-!
# The representation invariant of a vault (`src/model.c`)

`pv_model_add_record` validates a record before it stores it, `pv_cbor_decode` adds records
one by one through it, and `pv_model_delete` wipes the texts of a record where they lie. So
that wiping one record does not corrupt another, the texts must not overlap: `Laid` says so
for a list of slices, `LaysAfter` is the judgement by which every copying function keeps it.

`Intact` is the invariant, and `reachable_vault_is_intact` the result: it holds in every vault
that additions, deletions and decoding reach from `pv_model_init`, whatever their statuses,
and makes `pv_cbor_encode` accept every record.
-/

namespace PVault

open Binary Bump

variable {s : Slice} {lo hi : Nat} {ss acc : List Slice}

/-! ## Slices that do not overlap -/

/-- Two slices share no byte. -/
def Slice.Apart (s t : Slice) : Prop :=
  s.len = 0 ∨ t.len = 0 ∨ s.off + s.len ≤ t.off ∨ t.off + t.len ≤ s.off

theorem Slice.Apart.symm {t : Slice} (h : s.Apart t) : t.Apart s := by
  rw [Apart] at h ⊢
  omega

theorem Slice.null_apart (s : Slice) : Slice.null.Apart s := .inl rfl

/-- The slices lie between two positions and are apart from each other. -/
structure Laid (lo hi : Nat) (ss : List Slice) : Prop where
  within : ∀ s ∈ ss, s.len = 0 ∨ lo ≤ s.off ∧ s.off + s.len ≤ hi
  apart : ss.Pairwise Slice.Apart

theorem laid_nil (lo hi : Nat) : Laid lo hi [] := ⟨List.forall_mem_nil _, List.Pairwise.nil⟩

theorem Laid.mono {hi' : Nat} (h : Laid lo hi ss) (hle : hi ≤ hi') :
    Laid lo hi' ss :=
  ⟨fun s hs => (h.within s hs).imp_right fun hb => ⟨hb.1, le_trans hb.2 hle⟩, h.apart⟩

/-- What is laid behind the slices is apart from them. -/
theorem Laid.append {mid : Nat} {ts : List Slice} (hlo : lo ≤ mid) (hhi : mid ≤ hi)
    (hs : Laid lo mid ss) (ht : Laid mid hi ts) : Laid lo hi (ss ++ ts) := by
  refine ⟨fun s hmem => ?_, List.pairwise_append.mpr ⟨hs.apart, ht.apart, fun s hsm t htm => ?_⟩⟩
  · rcases List.mem_append.mp hmem with hmem | hmem
    · rcases hs.within s hmem with h | h
      · exact .inl h
      · omega
    · rcases ht.within s hmem with h | h
      · exact .inl h
      · omega
  · have := hs.within s hsm
    have := ht.within t htm
    rw [Slice.Apart]
    omega

theorem Laid.singleton (h : s.len = 0 ∨ lo ≤ s.off ∧ s.off + s.len ≤ hi) :
    Laid lo hi [s] :=
  ⟨fun t ht => by rwa [List.mem_singleton.mp ht], List.pairwise_singleton _ _⟩

/-- Slices that come from a list, or are null, may stand in the place of it. -/
theorem Laid.replace {pre mid mid' post : List Slice} (h : Laid lo hi (pre ++ (mid ++ post)))
    (hmid : ∀ s ∈ mid', s ∈ mid ∨ s = Slice.null) (hapart : mid'.Pairwise Slice.Apart) :
    Laid lo hi (pre ++ (mid' ++ post)) := by
  obtain ⟨hpre, hrest, hcross⟩ := List.pairwise_append.mp h.apart
  obtain ⟨-, hpost, hcross'⟩ := List.pairwise_append.mp hrest
  refine ⟨fun s hs => ?_, List.pairwise_append.mpr ⟨hpre, List.pairwise_append.mpr
    ⟨hapart, hpost, fun s hs t ht => ?_⟩, fun s hs t ht => ?_⟩⟩
  · rw [List.mem_append, List.mem_append] at hs
    have hold : s ∈ pre ++ (mid ++ post) ∨ s = Slice.null := by
      rw [List.mem_append, List.mem_append]
      have := hmid s
      tauto
    rcases hold with hold | rfl
    · exact h.within s hold
    · exact .inl rfl
  · rcases hmid s hs with hold | rfl
    · exact hcross' s hold t ht
    · exact Slice.null_apart t
  · rcases List.mem_append.mp ht with ht | ht
    · rcases hmid t ht with hold | rfl
      · exact hcross s hs t (List.mem_append_left _ hold)
      · exact (Slice.null_apart s).symm
    · exact hcross s hs t (List.mem_append_right _ ht)

theorem Arena.wipe_deref (arena : Arena) {t : Slice} (h : s.Apart t) :
    (arena.wipe t).deref s = arena.deref s := by
  rw [deref, deref, wipe]
  rcases h with h | h | h
  · rw [h, slice_zero, slice_zero]
  · rw [h, List.replicate_zero, Block.overwrite_nil]
  · exact Block.slice_overwrite_disjoint _ _ (by rwa [List.length_replicate])

/-- Wiping leaves every slice that is apart from the wiped ones. -/
theorem Arena.wipeAll_deref (ts : List Slice) : ∀ arena : Arena,
    (∀ t ∈ ts, s.Apart t) → (arena.wipeAll ts).deref s = arena.deref s := by
  induction ts with
  | nil => exact fun _ _ => rfl
  | cons t ts ih =>
    intro arena h
    obtain ⟨ht, hts⟩ := List.forall_mem_cons.mp h
    rw [wipeAll_cons, ih _ hts, arena.wipe_deref ht]

theorem Arena.Extends.deref_eq {a b : Arena} (h : a.Extends b) (hlaid : Laid lo a.used ss)
    (hs : s ∈ ss) : b.deref s = a.deref s := by
  rw [deref, deref]
  rcases hlaid.within s hs with hzero | hb
  · rw [hzero, slice_zero, slice_zero]
  · exact h.below _ _ hb.2

/-! ## Where the copies are placed -/

/-- With `acc` laid below the cursor, a successful run of `x` leaves `out` of its result laid
below the new cursor. -/
def LaysAfter {α : Type} (acc : List Slice) (x : ArenaM α) (out : α → List Slice) : Prop :=
  ∀ (lo : Nat) (arena arena' : Arena) (r : α), arena.readonly = false → lo ≤ arena.used →
    x.run.run arena = (.ok r, arena') → Laid lo arena.used acc →
    arena'.readonly = false ∧ arena.used ≤ arena'.used ∧ Laid lo arena'.used (out r)

theorem laysAfter_pure {α : Type} {out : α → List Slice} {r : α} (h : out r = acc) :
    LaysAfter acc (pure r) out := by
  intro lo arena arena' r' hw _ hrun hlaid
  rw [run_pure] at hrun
  cases hrun
  rw [h]
  exact ⟨hw, le_refl _, hlaid⟩

theorem laysAfter_throw {α : Type} {out : α → List Slice} (status : PvStatus) :
    LaysAfter acc (throw status : ArenaM α) out := by
  intro lo arena arena' r hw _ hrun _
  cases hrun

theorem LaysAfter.bind {α β : Type} {x : ArenaM α} {f : α → ArenaM β} {mid : α → List Slice}
    {out : β → List Slice} (hx : LaysAfter acc x mid) (hf : ∀ r, LaysAfter (mid r) (f r) out) :
    LaysAfter acc (x >>= f) out := by
  intro lo arena arena' r' hw hlo hrun hlaid
  rw [run_bind] at hrun
  rcases hfirst : x.run.run arena with ⟨status | r, arena₁⟩
  · rw [hfirst] at hrun
    cases hrun
  · rw [hfirst] at hrun
    obtain ⟨hw₁, hle₁, hlaid₁⟩ := hx lo arena arena₁ r hw hlo hfirst hlaid
    obtain ⟨hw₂, hle₂, hlaid₂⟩ := hf r lo arena₁ arena' r' hw₁ (le_trans hlo hle₁) hrun hlaid₁
    exact ⟨hw₂, le_trans hle₁ hle₂, hlaid₂⟩

theorem laysAfter_alloc {size k : Nat} (hsize : size ≠ 0) (hk : k < 64) :
    LaysAfter acc (allocOrLimit size (2 ^ k)) fun _ => acc := by
  intro lo arena arena' r hw _ hrun hlaid
  obtain ⟨hext, hw', -, -⟩ := (fills_alloc hsize hk).ok hw hrun
  exact ⟨hw', hext.used_le, hlaid.mono hext.used_le⟩

/-- A copy is laid behind everything else. -/
theorem laysAfter_pvArenaCopy (acc : List Slice) (data : Bytes) (maxLen : Nat) :
    LaysAfter acc (pvArenaCopy data maxLen) fun s => acc ++ [s] := by
  rw [pvArenaCopy]
  split_ifs with hlong hempty
  · exact laysAfter_throw _
  · intro lo arena arena' r hw hlo hrun hlaid
    rw [run_pure] at hrun
    cases hrun
    exact ⟨hw, le_refl _, hlaid.append hlo (le_refl _) (Laid.singleton (.inl rfl))⟩
  · intro lo arena arena' r hw hlo hrun hlaid
    have halloc := run_allocOrLimit (data.length + 1) 1 arena
    rw [show (1 : Nat) = 2 ^ 0 from rfl, pvArenaAlloc_eq arena (by omega) (by omega) hw, pow_zero,
      alignUp_one] at halloc
    rw [run_bind] at hrun
    by_cases hfit : arena.used + (data.length + 1) ≤ arena.capacity
    · rw [dif_pos hfit] at halloc
      rw [halloc] at hrun
      cases hrun
      exact ⟨hw, Nat.le_add_right _ _, hlaid.append hlo (Nat.le_add_right _ _)
        (Laid.singleton (.inr ⟨le_refl _, Nat.add_le_add_left (Nat.le_succ _) _⟩))⟩
    · rw [dif_neg hfit] at halloc
      rw [halloc] at hrun
      cases hrun

theorem laysAfter_writeAt (acc : List Slice) (off : Nat) (data : Bytes) :
    LaysAfter acc (writeAt off data) fun _ => acc := by
  intro lo arena arena' r hw _ hrun hlaid
  cases hrun
  exact ⟨hw, le_refl _, hlaid⟩

theorem laysAfter_copySlice (acc : List Slice) (maxLen entry : Nat) (data : Bytes) :
    LaysAfter acc (copySlice maxLen entry data) fun s => acc ++ [s] :=
  (laysAfter_pvArenaCopy acc data maxLen).bind fun _ =>
    (laysAfter_writeAt _ _ _).bind fun _ => laysAfter_pure rfl

section CopyArray

variable {α β : Type} {copy : Nat → α → ArenaM β} {out : β → List Slice}

theorem laysAfter_copyEach (size : Nat)
    (h : ∀ acc entry x, LaysAfter acc (copy entry x) fun item => acc ++ out item) (source : List α) :
    ∀ acc entry, LaysAfter acc (copyEach size copy entry source) fun items =>
      acc ++ items.flatMap out := by
  induction source with
  | nil => exact fun acc _ => laysAfter_pure (List.append_nil acc)
  | cons x rest ih =>
    intro acc entry
    refine (h acc entry x).bind fun item => (ih _ _).bind fun items => laysAfter_pure ?_
    rw [List.flatMap_cons, List.append_assoc]

theorem laysAfter_copyArray {size : Nat} (hsize : size ≠ 0)
    (h : ∀ acc entry x, LaysAfter acc (copy entry x) fun item => acc ++ out item)
    (source : List α) (acc : List Slice) :
    LaysAfter acc (copyArray size copy source) fun items => acc ++ items.flatMap out := by
  rw [copyArray]
  split_ifs with hempty hmany
  · exact laysAfter_pure (List.append_nil acc)
  · exact laysAfter_throw _
  · exact (laysAfter_alloc (k := 3) (Nat.mul_ne_zero hempty hsize) (by omega)).bind fun items =>
      laysAfter_copyEach size h source acc items

end CopyArray

theorem laysAfter_copySlices (source : List Bytes) (maxLen : Nat) (acc : List Slice) :
    LaysAfter acc (copySlices source maxLen) fun ss => acc ++ ss := by
  have h := laysAfter_copyArray (show sizeofSlice ≠ 0 by decide)
    (fun acc entry data => laysAfter_copySlice acc maxLen entry data) source acc
  simp only [List.flatMap_singleton'] at h
  exact h

/-- The slices of the fields, in the order of the copies. -/
abbrev fieldSlices {σ : Type} (fields : List (CustomField σ)) : List σ :=
  fields.flatMap fun field => [field.name, field.value]

theorem laysAfter_copyFields (source : List (CustomField Bytes)) (acc : List Slice) :
    LaysAfter acc (copyFields source) fun fields => acc ++ fieldSlices fields := by
  refine laysAfter_copyArray (by decide) (fun acc entry field => ?_) source acc
  refine (laysAfter_copySlice acc _ _ _).bind fun name => (laysAfter_copySlice _ _ _ _).bind
    fun value => (laysAfter_writeAt _ _ _).bind fun _ => laysAfter_pure ?_
  rw [List.append_assoc, List.singleton_append]

/-- **The texts of a new record do not overlap**, and lie behind everything else. -/
theorem laysAfter_copyRecord (source : Record Bytes) (id : Block pvRecordIdBytes) (now : Int64) :
    LaysAfter [] (copyRecord source id now) Record.slices := by
  refine (laysAfter_pvArenaCopy [] source.title _).bind fun title => ?_
  split_ifs
  · exact laysAfter_throw _
  · refine (laysAfter_pvArenaCopy _ source.username _).bind fun username =>
      (laysAfter_pvArenaCopy _ source.password _).bind fun password =>
      (laysAfter_pvArenaCopy _ source.notes _).bind fun notes =>
      (laysAfter_copySlices source.urls _ _).bind fun urls =>
      (laysAfter_copySlices source.tags _ _).bind fun tags =>
      (laysAfter_copyFields source.fields _).bind fun fields => laysAfter_pure ?_
    simp [Record.slices, Record.secrets, fieldSlices]

/-! ## The invariant -/

section Intact

variable {Hash : Type}
variable {vault vault' : Vault Hash} {source : Record Bytes} {draws : List (Block pvRecordIdBytes)}
  {now : Int64} {protect : Bool} {status : PvStatus} {index : Nat}

/-- All slices of the vault, record by record. -/
def Vault.slices (vault : Vault Hash) : List Slice := vault.records.flatMap Record.slices

/-- **The representation invariant**: there is room in the record array, the texts do not
overlap, no two records have the same id, and every record passes `pv_model_validate_record`. -/
structure Intact (vault : Vault Hash) : Prop where
  capacity_pos : 0 < vault.recordCapacity
  count_le : vault.records.length ≤ vault.recordCapacity
  laid : Laid 0 vault.arena.used vault.slices
  ids_nodup : (vault.records.map Record.id).Nodup
  valid : ∀ r ∈ vault.view, pvModelValidateRecord r = .ok

theorem Fresh.intact (h : Fresh vault) : Intact vault where
  capacity_pos := by rw [h.array_eq]; decide
  count_le := by rw [h.records_eq]; exact Nat.zero_le _
  laid := by rw [Vault.slices, h.records_eq]; exact laid_nil _ _
  ids_nodup := by rw [h.records_eq]; exact List.nodup_nil
  valid := by rw [Vault.view, h.records_eq]; exact List.forall_mem_nil _

/-- A change of anything but the records keeps the invariant, as long as what lies below the
cursor stays. -/
theorem Intact.of_extends (h : Intact vault) (harena : vault.arena.Extends vault'.arena)
    (hrecords : vault'.records = vault.records)
    (hcapacity : vault.recordCapacity ≤ vault'.recordCapacity) : Intact vault' where
  capacity_pos := lt_of_lt_of_le h.capacity_pos hcapacity
  count_le := by rw [hrecords]; exact le_trans h.count_le hcapacity
  laid := by rw [Vault.slices, hrecords]; exact h.laid.mono harena.used_le
  ids_nodup := by rw [hrecords]; exact h.ids_nodup
  valid := by
    have hview : vault'.view = vault.view := by
      rw [Vault.view, Vault.view, hrecords]
      refine List.map_congr_left fun r hr => Record.map_congr fun s hs => ?_
      exact harena.deref_eq h.laid (List.mem_flatMap.mpr ⟨r, hr, hs⟩)
    rw [hview]
    exact h.valid

/-- The arena with another protection is the same arena. -/
theorem Arena.extends_readonly (arena : Arena) (readonly : Bool) :
    arena.Extends { arena with readonly } :=
  ⟨rfl, le_refl _, fun _ _ _ _ => rfl⟩

theorem chooseId_ne_zero {records : List (Record Slice)} {id : Block pvRecordIdBytes}
    (h : chooseId records source draws = some (.ok id)) : bytesAllZero id.bytes = false := by
  rw [chooseId] at h
  split_ifs at h with hzero hfound
  · induction draws with
    | nil => cases h
    | cons draw draws ih =>
      rw [drawId] at h
      split_ifs at h with htaken
      · exact ih h
      · cases h
        rw [not_or, Bool.not_eq_true] at htaken
        exact htaken.1
  · cases h
  · cases h
    rwa [Bool.not_eq_true] at hzero

/-- A stored record passes the validation that `pv_cbor_encode` makes. -/
theorem storedRecord_valid (hvalid : source.Valid) {id : Block pvRecordIdBytes}
    (hid : bytesAllZero id.bytes = false) (hnow : source.revision = 0 → 0 ≤ now) :
    pvModelValidateRecord (storedRecord source id now) = .ok := by
  refine pvModelValidateRecord_ok.mpr ⟨{ hvalid with
    created_nonneg := ?_
    updated_nonneg := ?_ }, ?_, hid⟩
  · rw [storedRecord]
    dsimp only
    split_ifs with h
    · exact hnow h.1
    · exact hvalid.created_nonneg
  · rw [storedRecord]
    dsimp only
    split_ifs with h
    · exact hnow h.1
    · exact hvalid.updated_nonneg
  · rw [storedRecord]
    dsimp only
    split_ifs with h
    · decide
    · exact h

/-- **What `pv_model_add_record` can do**, whatever it returns: move the cursor and grow the
record array, and, when it succeeds, append one record. -/
theorem pvModelAddRecord_step (hpos : 0 < vault.recordCapacity)
    (hcount : vault.records.length ≤ vault.recordCapacity)
    (h : pvModelAddRecord vault source now draws protect = some (status, vault')) :
    vault.arena.Extends vault'.arena ∧ vault.recordCapacity ≤ vault'.recordCapacity ∧
    (vault'.records = vault.records ∨ ∃ id stored, source.Valid ∧
      chooseId vault.records source draws = some (.ok id) ∧
      vault'.records = vault.records ++ [stored] ∧
      vault'.arena.HoldsRecord stored (storedRecord source id now) ∧
      Laid vault.arena.used vault'.arena.used stored.slices ∧
      vault.records.length < vault'.recordCapacity) := by
  have hsame : vault.arena.Extends vault.arena ∧ vault.recordCapacity ≤ vault.recordCapacity :=
    ⟨Arena.ExtendsBut.refl _, le_refl _⟩
  rw [pvModelAddRecord] at h
  split_ifs at h with hbad hid hprotect
  · cases h
    exact ⟨hsame.1, hsame.2, .inl rfl⟩
  · cases h
    exact ⟨hsame.1, hsame.2, .inl rfl⟩
  · cases h
    exact ⟨hsame.1, hsame.2, .inl rfl⟩
  dsimp only at h
  have hvalid : source.Valid := validateRecordFields_ok.mp (not_not.mp hbad)
  have hopen := vault.arena.extends_readonly false
  have hfills := fills_ensureRecordCapacity vault.records.length hpos
  rcases hgrow : (ensureRecordCapacity vault.records.length vault.recordCapacity).run.run
      { vault.arena with readonly := false } with ⟨status' | capacity, mid⟩
  · rw [hgrow] at h
    cases h
    exact ⟨hopen.trans (hfills.error rfl hgrow).2, le_refl _, .inl rfl⟩
  obtain ⟨hext, hw, -, rfl⟩ := hfills.ok rfl hgrow
  have hgrown : vault.recordCapacity ≤ grownCapacity vault.records.length vault.recordCapacity := by
    rw [grownCapacity]
    split_ifs <;> omega
  rw [hgrow] at h
  dsimp only at h
  rcases hchoose : chooseId vault.records source draws with _ | status' | id
  · rw [hchoose] at h
    cases h
  · rw [hchoose] at h
    cases h
    exact ⟨hopen.trans hext, hgrown, .inl rfl⟩
  rw [hchoose] at h
  dsimp only at h
  rcases hcopy : (copyRecord source id now).run.run mid with ⟨status' | stored, fin⟩
  · rw [hcopy] at h
    cases h
    exact ⟨hopen.trans (hext.trans ((fills_copyRecord hvalid id now).error hw hcopy).2), hgrown,
      .inl rfl⟩
  · rw [hcopy] at h
    cases h
    obtain ⟨hext', -, -, hholds⟩ := (fills_copyRecord hvalid id now).ok hw hcopy
    obtain ⟨-, -, hlaid⟩ := laysAfter_copyRecord source id now vault.arena.used mid fin stored hw
      hext.used_le hcopy (laid_nil _ _)
    exact ⟨hopen.trans (hext.trans hext'), hgrown,
      .inr ⟨id, stored, hvalid, rfl, rfl, hholds, hlaid, lt_grownCapacity hpos hcount⟩⟩

/-- **An addition keeps the invariant**, successful or not. -/
theorem Intact.add (hinv : Intact vault) (hnow : source.revision = 0 → 0 ≤ now)
    (h : pvModelAddRecord vault source now draws protect = some (status, vault')) :
    Intact vault' := by
  obtain ⟨hext, hcapacity, hsame | ⟨id, stored, hvalid, hchoose, hrecords, hholds, hlaid, hroom⟩⟩ :=
    pvModelAddRecord_step hinv.capacity_pos hinv.count_le h
  · exact hinv.of_extends hext hsame hcapacity
  · refine ⟨lt_of_lt_of_le hinv.capacity_pos hcapacity, ?_, ?_, ?_, ?_⟩
    · rw [hrecords, List.length_append, List.length_singleton]
      exact hroom
    · rw [Vault.slices, hrecords, List.flatMap_append, List.flatMap_singleton]
      exact hinv.laid.append (Nat.zero_le _) hext.used_le hlaid
    · rw [hrecords, List.map_append, List.map_singleton, hholds.id]
      refine List.nodup_append.mpr ⟨hinv.ids_nodup, List.pairwise_singleton _ _, ?_⟩
      intro a ha b hb hab
      rw [List.mem_singleton.mp hb] at hab
      exact chooseId_new hchoose (by rwa [hab] at ha)
    · -- what was stored before reads as before
      have hold : Intact { vault with arena := vault'.arena } :=
        hinv.of_extends hext rfl (le_refl _)
      intro r hr
      rw [Vault.view, hrecords, List.map_append, List.map_singleton, List.mem_append,
        List.mem_singleton] at hr
      rcases hr with hr | rfl
      · exact hold.valid r hr
      · rw [hholds.map_deref]
        exact storedRecord_valid hvalid (chooseId_ne_zero hchoose) hnow

/-! ## Deleting -/

/-- What a deletion did to the records: the one at `index` is the next revision, marked
deleted; every other record reads as before; and no deleted record came back. -/
structure DeletesOne (vault : Vault Hash) (index : Nat) (vault' : Vault Hash) : Prop where
  bumped : ∃ r r', vault.view[index]? = some r ∧ vault'.view[index]? = some r' ∧
    r'.revision.toNat = r.revision.toNat + 1 ∧ r'.flags &&& pvRecordDeleted ≠ 0 ∧ r'.id = r.id
  others : ∀ i, i ≠ index → vault'.view[i]? = vault.view[i]?
  stays_deleted : ∀ (i : Nat) (r r' : Record Bytes), vault.view[i]? = some r → vault'.view[i]? = some r' →
    r.flags &&& pvRecordDeleted ≠ 0 → r'.flags &&& pvRecordDeleted ≠ 0

/-- A successful deletion, inverted. -/
theorem pvModelDelete_ok (h : pvModelDelete vault index now protect = (status, vault')) :
    (status ≠ .ok ∧ vault' = vault) ∨ ∃ record, status = .ok ∧
      vault.records[index]? = some record ∧
      record.revision ≠ UInt64.ofNat (UInt64.size - 1) ∧
      vault' = { vault with
        arena := { vault.arena with readonly := false }.wipeAll record.secrets
        records := vault.records.set index (tombstone record now)
        dirty := true
        updatedMs := now } := by
  rw [pvModelDelete] at h
  rcases hget : vault.records[index]? with _ | record
  · rw [hget] at h
    cases h
    exact .inl ⟨by decide, rfl⟩
  · rw [hget] at h
    dsimp only at h
    split_ifs at h with hflag hmax hprotect
    · cases h
      exact .inl ⟨by decide, rfl⟩
    · cases h
      exact .inl ⟨by decide, rfl⟩
    · cases h
      exact .inl ⟨by decide, rfl⟩
    · cases h
      exact .inr ⟨record, rfl, rfl, hmax, rfl⟩

theorem toNat_succ_revision {revision : UInt64} (h : revision ≠ UInt64.ofNat (UInt64.size - 1)) :
    (revision + 1).toNat = revision.toNat + 1 := by
  have hlt := revision.toNat_lt
  have hne : revision.toNat ≠ 2 ^ 64 - 1 := by
    intro heq
    apply h
    apply UInt64.toNat_inj.mp
    rw [heq]
    rfl
  rw [UInt64.toNat_add]
  exact Nat.mod_eq_of_lt (by simp; omega)

/-- A tombstone of a valid record is valid. -/
theorem tombstone_valid {r : Record Bytes} (h : pvModelValidateRecord r = .ok) (hnow : 0 ≤ now)
    (hrev : r.revision ≠ UInt64.ofNat (UInt64.size - 1)) :
    pvModelValidateRecord { r with
      username := [], password := [], notes := [], urls := [], tags := [], fields := []
      flags := r.flags ||| pvRecordDeleted
      revision := r.revision + 1
      updatedMs := now } = .ok := by
  obtain ⟨hvalid, -, hid⟩ := pvModelValidateRecord_ok.mp h
  refine pvModelValidateRecord_ok.mpr ⟨⟨hvalid.title_le, Nat.zero_le _, Nat.zero_le _,
    Nat.zero_le _, Nat.zero_le _, Nat.zero_le _, Nat.zero_le _, hvalid.created_nonneg, hnow, ?_,
    hvalid.title_text, rfl, rfl, List.forall_mem_nil _, List.forall_mem_nil _,
    List.forall_mem_nil _⟩, ?_, hid⟩
  · have hmask : (pvRecordDeleted ||| pvRecordFavorite).toNat = 2 ^ 2 - 1 := by decide
    have hflags := (flags32_known (by omega) hmask).mp hvalid.flags_known
    refine (flags32_known (by omega) hmask).mpr ?_
    rw [UInt32.toNat_or]
    exact Nat.or_lt_two_pow hflags (by decide)
  · intro hzero
    have hnat := toNat_succ_revision hrev
    rw [show r.revision + 1 = 0 from hzero] at hnat
    exact absurd hnat (Nat.succ_ne_zero _).symm

/-- How the records read after the texts of one of them have been wiped. -/
theorem Intact.view_delete (hinv : Intact vault) {record : Record Slice}
    (hget : vault.records[index]? = some record) (now : Int64) :
    (vault.records.set index (tombstone record now)).map
        (Record.map (({ vault.arena with readonly := false }.wipeAll record.secrets).deref)) =
      vault.view.set index ((tombstone record now).map vault.arena.deref) := by
  obtain ⟨pre, post, hsplit, hset⟩ := set_split hget
  have hpairs := hinv.laid.apart
  rw [Vault.slices, hsplit, List.flatMap_append, List.flatMap_cons] at hpairs
  obtain ⟨-, hrest, hcross⟩ := List.pairwise_append.mp hpairs
  obtain ⟨hown, -, hcross'⟩ := List.pairwise_append.mp hrest
  have htail : ∀ t ∈ record.secrets, t ∈ record.slices := fun t ht => List.mem_cons_of_mem _ ht
  have hderef : ∀ s, (∀ t ∈ record.secrets, s.Apart t) →
      ({ vault.arena with readonly := false }.wipeAll record.secrets).deref s =
        vault.arena.deref s := fun s hs => Arena.wipeAll_deref _ _ hs
  rw [Vault.view, ← List.map_set, hset]
  refine List.map_congr_left fun r hr => Record.map_congr fun s hs => hderef s fun t ht => ?_
  rcases List.mem_append.mp hr with hr | hr
  · exact hcross s (List.mem_flatMap.mpr ⟨r, hr, hs⟩) t (List.mem_append_left _ (htail t ht))
  rcases List.mem_cons.mp hr with rfl | hr
  · -- of the record itself, the title and null slices are left
    have hcases : s = record.title ∨ s = Slice.null := by
      simpa [Record.slices, Record.secrets, tombstone] using hs
    rcases hcases with rfl | rfl
    · exact (List.pairwise_cons.mp hown).1 t ht
    · exact Slice.null_apart t
  · exact (hcross' t (htail t ht) s (List.mem_flatMap.mpr ⟨r, hr, hs⟩)).symm

/-- **A deletion keeps the invariant**, and a successful one deletes one record. -/
theorem Intact.delete (hinv : Intact vault) (hnow : 0 ≤ now)
    (h : pvModelDelete vault index now protect = (status, vault')) : Intact vault' := by
  rcases pvModelDelete_ok h with ⟨-, rfl⟩ | ⟨record, -, hget, hrev, rfl⟩
  · exact hinv
  · obtain ⟨hused, -, -⟩ := Arena.wipeAll_frame record.secrets { vault.arena with readonly := false }
    obtain ⟨pre, post, hsplit, hset⟩ := set_split hget
    have hlaid := hinv.laid
    refine ⟨hinv.capacity_pos, ?_, ?_, ?_, ?_⟩
    · dsimp only
      rw [List.length_set]
      exact hinv.count_le
    · rw [Vault.slices] at hlaid ⊢
      dsimp only
      rw [hused, hset, List.flatMap_append, List.flatMap_cons]
      rw [hsplit, List.flatMap_append, List.flatMap_cons] at hlaid
      refine hlaid.replace (fun s hs => ?_) ?_
      · have hcases : s = record.title ∨ s = Slice.null := by
          simpa [Record.slices, Record.secrets, tombstone] using hs
        exact hcases.imp_left fun heq => by rw [heq]; exact List.mem_cons_self
      · simp [Record.slices, Record.secrets, tombstone, Slice.Apart, Slice.null]
    · dsimp only
      rw [hset, List.map_append, List.map_cons]
      have hids := hinv.ids_nodup
      rwa [hsplit, List.map_append, List.map_cons] at hids
    · intro r hr
      rw [Vault.view] at hr
      dsimp only at hr
      rw [hinv.view_delete hget now] at hr
      rcases List.mem_or_eq_of_mem_set hr with hr | rfl
      · exact hinv.valid r hr
      · have hold := hinv.valid (record.map vault.arena.deref)
          (List.mem_map.mpr ⟨record, List.mem_of_getElem? hget, rfl⟩)
        have hnull : vault.arena.deref Slice.null = [] := slice_zero _ _
        have htomb := tombstone_valid hold hnow hrev
        rw [tombstone, Record.map]
        dsimp only
        rw [hnull]
        exact htomb

theorem or_pvRecordDeleted (flags : UInt32) : (flags ||| pvRecordDeleted) &&& pvRecordDeleted ≠ 0 := by
  intro h
  have hbit := congrArg (fun f : UInt32 => f.toNat.testBit 0) h
  simp [pvRecordDeleted, UInt32.toNat_and, UInt32.toNat_or] at hbit

/-- A successful deletion raises the revision of one record by one, marks it deleted, and
leaves the other records. -/
theorem Intact.deletesOne (hinv : Intact vault)
    (h : pvModelDelete vault index now protect = (.ok, vault')) :
    DeletesOne vault index vault' := by
  obtain ⟨hbad, -⟩ | ⟨record, -, hget, hrev, hafter⟩ := pvModelDelete_ok h
  · exact absurd rfl hbad
  have hview : vault'.view = vault.view.set index ((tombstone record now).map vault.arena.deref) := by
    rw [hafter]
    exact hinv.view_delete hget now
  have hold : vault.view[index]? = some (record.map vault.arena.deref) := by
    rw [Vault.view, List.getElem?_map, hget, Option.map_some]
  have hlt : index < vault.view.length := (List.getElem?_eq_some_iff.mp hold).1
  have hnew : vault'.view[index]? = some ((tombstone record now).map vault.arena.deref) := by
    rw [hview, List.getElem?_set_self hlt]
  have hothers : ∀ i, i ≠ index → vault'.view[i]? = vault.view[i]? := by
    intro i hi
    rw [hview, List.getElem?_set_ne hi.symm]
  refine ⟨⟨_, _, hold, hnew, toNat_succ_revision hrev, or_pvRecordDeleted _, rfl⟩, hothers, ?_⟩
  intro i r r' hr hr' hdeleted
  by_cases hi : i = index
  · rw [hi, hnew] at hr'
    cases hr'
    exact or_pvRecordDeleted _
  · rw [hothers i hi, hr] at hr'
    cases hr'
    exact hdeleted

/-! ## Decoding -/

/-- The record loop of the decoder keeps the invariant, however far it gets. -/
theorem Intact.decodeRecords (env : DecodeEnv) (n : Nat) : ∀ {inp rest : Bytes}
    {vault vault' : Vault Hash} {status : PvStatus}, Intact vault →
    decodeRecords env n inp vault = some (status, rest, vault') → Intact vault' := by
  induction n with
  | zero =>
    intro inp rest vault vault' status hinv h
    cases h
    exact hinv
  | succ n ih =>
    intro inp rest vault vault' status hinv h
    rw [PVault.decodeRecords, decodeRecord] at h
    rcases hread : readRecord.run inp with status' | ⟨r, mid⟩
    · rw [hread] at h
      dsimp only at h
      rw [if_neg (by split_ifs <;> simp_all)] at h
      cases h
      exact hinv
    · rw [hread] at h
      dsimp only at h
      -- what is read has a revision, so the clock does not matter
      have hrev := (pvModelValidateRecord_ok.mp (canonical_readRecord _ _ _ hread).2).2.1
      rcases hadd : pvModelAddRecord vault r (env.clock vault.records.length) [] env.readwrite with
        _ | ⟨status', next⟩
      · rw [hadd] at h
        cases h
      · have hnext := hinv.add (fun h => absurd h hrev) hadd
        rw [hadd] at h
        dsimp only at h
        split_ifs at h <;> first | exact ih hnext h | (cases h; exact hnext)

/-- **Decoding keeps the invariant**, whatever it returns. -/
theorem Intact.decode {env : DecodeEnv} {input : Bytes} (hinv : Intact vault)
    (h : pvCborDecode env input vault = some (status, vault')) : Intact vault' := by
  have stamp : ∀ {v w : Vault Hash}, Intact v → w.arena = v.arena → w.records = v.records →
      w.recordCapacity = v.recordCapacity → Intact w := by
    intro v w hv harena hrecords hcapacity
    exact hv.of_extends (by rw [harena]; exact Arena.ExtendsBut.refl _) hrecords (le_of_eq hcapacity.symm)
  rw [pvCborDecode] at h
  split_ifs at h
  · cases h
    exact hinv
  · cases h
    exact hinv
  rcases hgeneration : readGeneration.run input with status' | ⟨generation, rest⟩
  · rw [hgeneration] at h
    cases h
    exact hinv
  rw [hgeneration] at h
  dsimp only at h
  rcases hdevice : readDeviceId.run rest with status' | ⟨deviceId, rest⟩
  · rw [hdevice] at h
    cases h
    exact stamp hinv rfl rfl rfl
  rw [hdevice] at h
  dsimp only at h
  split_ifs at h
  · cases h
    exact stamp hinv rfl rfl rfl
  rcases htimes : readTimes.run rest with status' | ⟨⟨created, updated, count⟩, rest⟩
  · rw [htimes] at h
    cases h
    exact stamp hinv rfl rfl rfl
  rw [htimes] at h
  dsimp only at h
  rw [decodeBody] at h
  rcases hrecords : PVault.decodeRecords env count rest { vault with
      generation, deviceId := Block.ofBytes _ deviceId } with _ | ⟨status', rest', filled⟩
  · rw [hrecords] at h
    cases h
  · rw [hrecords] at h
    have hstamped : Intact { vault with generation, deviceId := Block.ofBytes _ deviceId } :=
      stamp hinv rfl rfl rfl
    have hfilled := hstamped.decodeRecords env count hrecords
    dsimp only at h
    split_ifs at h
    · cases h
      exact hfilled
    · cases h
      exact hfilled
    · rw [pvArenaSetReadonly] at h
      split_ifs at h <;> cases h
      · exact hfilled.of_extends (filled.arena.extends_readonly true) rfl (le_refl _)
      · exact stamp hfilled rfl rfl rfl

/-! ## Reachable vaults -/

/-- The vaults that the model operations reach, whatever they return; the clock that stamps a
record is not negative. -/
inductive Reachable : Vault Hash → Prop
  | init {zeroHash : Hash} {path : Bytes} {arenaMem vmkMem : SecureAlloc} {vault : Vault Hash} :
    pvModelInit zeroHash path arenaMem vmkMem = .ok vault → Reachable vault
  | add {vault vault' : Vault Hash} {source : Record Bytes} {now : Int64}
    {draws : List (Block pvRecordIdBytes)} {protect : Bool} {status : PvStatus} :
    Reachable vault → 0 ≤ now →
    pvModelAddRecord vault source now draws protect = some (status, vault') → Reachable vault'
  | delete {vault vault' : Vault Hash} {index : Nat} {now : Int64} {protect : Bool}
    {status : PvStatus} :
    Reachable vault → 0 ≤ now → pvModelDelete vault index now protect = (status, vault') →
    Reachable vault'
  | decode {vault vault' : Vault Hash} {env : DecodeEnv} {input : Bytes} {status : PvStatus} :
    Reachable vault → pvCborDecode env input vault = some (status, vault') → Reachable vault'

theorem Reachable.intact (h : Reachable vault) : Intact vault := by
  induction h with
  | init hinit => exact (pvModelInit_ok hinit).intact
  | add _ hnow hadd ih => exact ih.add (fun _ => hnow) hadd
  | delete _ hnow hdel ih => exact ih.delete hnow hdel
  | decode _ hdec ih => exact ih.decode hdec

/-- The encoder finds no format error in a valid vault. -/
theorem pvCborEncode_ne_errFormat (hvalid : vault.payload.Valid) (mem : Bool) :
    (pvCborEncode vault mem).1 ≠ .errFormat := by
  cases mem with
  | true =>
    rw [pvCborEncode_valid hvalid]
    split_ifs <;> simp
  | false =>
    rw [pvCborEncode]
    split_ifs with htimes hdevice hrecords hmem
    · decide
    · rw [show bytesAllZero vault.deviceId.bytes = false from hvalid.deviceId_ne] at hdevice
      cases hdevice
    · exact absurd (firstFailure_ok.mpr hvalid.records_valid) hrecords
    · decide
    · exact absurd rfl hmem

/-- **The vaults that the model operations reach.** The record array has room for the records,
the ids are not zero and pairwise distinct, and every record passes
`pv_model_validate_record`. A successful deletion makes the next revision of one record, and
undeletes none. So whatever device id and times such a vault is given, `pv_cbor_encode` does
not return `PV_ERR_FORMAT`. -/
theorem reachable_vault_is_intact {vault : Vault Hash} (h : Reachable vault) :
    vault.records.length ≤ vault.recordCapacity ∧
    (∀ r ∈ vault.records, bytesAllZero r.id.bytes = false) ∧
    (vault.records.map Record.id).Nodup ∧
    (∀ r ∈ vault.view, pvModelValidateRecord r = .ok) ∧
    (∀ index now protect vault', pvModelDelete vault index now protect = (.ok, vault') →
      DeletesOne vault index vault') ∧
    (∀ deviceId createdMs updatedMs mem, bytesAllZero deviceId.bytes = false → 0 ≤ createdMs →
      0 ≤ updatedMs →
      (pvCborEncode { vault with deviceId, createdMs, updatedMs } mem).1 ≠ .errFormat) := by
  have hinv := h.intact
  refine ⟨hinv.count_le, fun r hr => ?_, hinv.ids_nodup, hinv.valid,
    fun index now protect vault' hdel => hinv.deletesOne hdel,
    fun deviceId createdMs updatedMs mem hdevice hcreated hupdated => ?_⟩
  · exact (pvModelValidateRecord_ok.mp (hinv.valid _ (List.mem_map.mpr ⟨r, hr, rfl⟩))).2.2
  · have hvalid : (Vault.payload { vault with deviceId, createdMs, updatedMs }).Valid :=
      ⟨hcreated, hupdated, hdevice, hinv.valid⟩
    exact pvCborEncode_ne_errFormat hvalid mem

/-- A record with a title and nothing else. -/
def titledRecord : Record Bytes :=
  { id := Block.zero _, revision := 0, createdMs := 0, updatedMs := 0, flags := 0, title := [97]
    username := [], password := [], notes := [], urls := [], tags := [], fields := [] }

theorem titledRecord_valid : titledRecord.Valid :=
  validateRecordFields_ok.mp (by decide)

/-- A reachable vault with one record, under a drawn id. -/
theorem exists_titled_vault {zeroHash : Hash} {fresh : Vault Hash}
    (hinit : pvModelInit zeroHash [] .allocated .allocated = .ok fresh) :
    ∃ vault, Reachable vault ∧ Added fresh (storedRecord titledRecord (Block.ofBytes _ [1]) 5) 5 vault := by
  have hfresh := pvModelInit_ok hinit
  have hchoose : chooseId fresh.records titledRecord [Block.zero _, Block.ofBytes _ [1]] =
      some (.ok (Block.ofBytes _ [1])) := by
    rw [hfresh.records_eq]
    decide
  have hfit : placeAll fresh.arena.used (addRequests fresh.records.length fresh.recordCapacity
      (titledRecord.map List.length)) ≤ fresh.arena.capacity := by
    rw [hfresh.used_eq, hfresh.records_eq, hfresh.array_eq, hfresh.arena_eq]
    decide
  have hwritable : ¬(fresh.arena.readonly = true ∧ true = false) := by simp
  obtain ⟨vault, hadd, hadded⟩ := (pvModelAddRecord_settled 5 hfresh.capacity_pos titledRecord_valid
    (by decide) hwritable hchoose).1 hfit
  exact ⟨vault, (Reachable.init hinit).add (by decide) hadd, hadded⟩

/-- The theorem at a vault with one record: the record can be deleted, and the vault encoded. -/
theorem reachable_vault_is_intact_titled :
    ∃ vault vault' : Vault Unit, vault.records.length = 1 ∧
      pvModelDelete vault 0 6 true = (.ok, vault') ∧ DeletesOne vault 0 vault' ∧
      (pvCborEncode { vault with deviceId := Block.ofBytes _ [7], createdMs := 5, updatedMs := 5 }
        true).1 ≠ .errFormat := by
  obtain ⟨fresh, hinit⟩ := pvModelInit_granted () (show ([] : Bytes).length < pathMax by decide)
  obtain ⟨vault, hreach, hadded⟩ := exists_titled_vault hinit
  obtain ⟨stored, hrecords, hheld⟩ := hadded.records_eq
  have hone : vault.records = [stored] := by
    rw [hrecords, (pvModelInit_ok hinit).records_eq, List.nil_append]
  have hdel : ∃ vault', pvModelDelete vault 0 6 true = (.ok, vault') := by
    rw [pvModelDelete, hone]
    show ∃ vault', (if stored.flags &&& pvRecordDeleted ≠ 0 then _ else _) = _
    rw [hheld.flags, hheld.revision, if_neg (by decide), if_neg (by decide), if_neg (by simp)]
    exact ⟨_, rfl⟩
  obtain ⟨vault', hdel⟩ := hdel
  obtain ⟨-, -, -, -, hdeletes, hencodes⟩ := reachable_vault_is_intact hreach
  exact ⟨vault, vault', by rw [hone]; rfl, hdel, hdeletes 0 6 true vault' hdel,
    hencodes _ 5 5 true (by decide) (by decide) (by decide)⟩

end Intact

end PVault
