import PVault.Edit
import PVault.CborRoundTrip

/-!
# The live layout and the rebuilt one

A live vault fills its arena in the order of the edits; the decoder fills a fresh arena in
the order of the records. The live arena keeps everything that was ever copied, so one
expects the rebuilt layout to be no longer. It nearly is: an edit that makes a small text
grow pays for the new text only, but in the rebuilt layout it can push the next array over
an alignment boundary and cost up to eight bytes more (sixteen when a list appears where
there was none). `Edit.debt` counts these cases, and `Rebuildable` is the invariant that
every operation keeps: the rebuilt layout ends at most eight bytes per unit of debt behind
the live cursor.
-/

namespace PVault

open Binary Bump

variable {after : List Request} {q used : Nat}

/-! ## Drift -/

/-- Where the records of a vault end when they are decoded into a fresh one. -/
def rebuiltEnd (rs : List (Record Nat)) : Nat :=
  placeAll (pvInitialRecordCapacity * sizeofRecord) (vaultRequests 0 pvInitialRecordCapacity rs)

/-- A text replacement is free when the growth, rounded up to the alignment of the arrays
behind it, is covered by the new copy. -/
def textDebt (old new : Nat) : Nat :=
  if alignUp 8 (textSize new - textSize old) ≤ textSize new then 0 else 1

/-- A list replacement is free unless a list appears where there was none. -/
def listDebt (old new : Nat) : Nat := if new = 0 ∨ old ≠ 0 then 0 else 2

/-- The alignment an edit can cost, in units of eight bytes. -/
def Edit.debt (r : Record Nat) : Edit → Nat
  | .favorite => 0
  | .text slot value => textDebt (slot.get r) value.length
  | .list slot value => listDebt (slot.get r).length value.items.length

theorem text_drift (hafter : AlignedTo 8 after) {debt old new : Nat}
    (h : placeAll (placeAll q (textRequests old)) after ≤ used + 8 * debt) :
    placeAll (placeAll q (textRequests new)) after ≤
      placeAll used (textRequests new) + 8 * (debt + textDebt old new) := by
  rw [placeAll_textRequests] at h
  rw [placeAll_textRequests, placeAll_textRequests]
  have hgrow : placeAll (q + textSize new) after ≤
      placeAll (q + textSize old) after + alignUp 8 (textSize new - textSize old) :=
    le_trans (placeAll_mono after (by omega))
      (placeAll_add_le (by omega) hafter (q + textSize old) (textSize new - textSize old))
  have hround := alignUp_lt (a := 8) (by omega) (textSize new - textSize old)
  rw [textDebt]
  split_ifs with hfree
  · omega
  · omega

theorem list_drift (hafter : AlignedTo 8 after) {debt : Nat} {old : List Nat} (new : List Nat)
    (h : placeAll (placeAll q (listRequests old)) after ≤ used + 8 * debt) :
    placeAll (placeAll q (listRequests new)) after ≤
      placeAll used (listRequests new) + 8 * (debt + listDebt old.length new.length) := by
  rw [listDebt]
  by_cases hnew : new.length = 0
  · -- nothing is left of the list
    rw [listRequests, if_pos hnew, placeAll_nil, placeAll_nil, if_pos (.inl hnew)]
    exact le_trans (placeAll_mono after (le_placeAll _ q)) h
  · rw [placeAll_listRequests hnew, placeAll_listRequests hnew]
    have hsize := le_listSize hnew
    have hused := le_alignUp (a := 8) (by omega) used
    by_cases hold : old.length = 0
    · -- a list appears: its array is aligned, and so is what follows
      rw [listRequests, if_pos hold, placeAll_nil] at h
      rw [if_neg (by omega)]
      have hq := alignUp_lt (a := 8) (by omega) q
      have hgrow : placeAll (alignUp 8 q + listSize new) after ≤
          placeAll q after + alignUp 8 (7 + listSize new) :=
        le_trans (placeAll_mono after (by omega)) (placeAll_add_le (by omega) hafter q _)
      have hround := alignUp_lt (a := 8) (by omega) (7 + listSize new)
      omega
    · -- both arrays start at the same place, and the old one had at least sixteen bytes
      rw [placeAll_listRequests hold] at h
      rw [if_pos (.inr hold)]
      have hsize' := le_listSize hold
      have hgrow : placeAll (alignUp 8 q + listSize new) after ≤
          placeAll (alignUp 8 q + listSize old) after + alignUp 8 (listSize new - listSize old) :=
        le_trans (placeAll_mono after (by omega)) (placeAll_add_le (by omega) hafter _ _)
      have hround := alignUp_lt (a := 8) (by omega) (listSize new - listSize old)
      omega

theorem TextSlot.requests_around (slot : TextSlot) (r : Record Nat) :
    ∃ before after, AlignedTo 8 after ∧ ∀ n, recordRequests (slot.set r n) =
      before ++ (textRequests n ++ after) := by
  have h4 := (aligned_listRequests r.urls).append
    ((aligned_listRequests r.tags).append (aligned_fieldRequests r.fields))
  have h3 := (aligned_textRequests r.notes).append h4
  have h2 := (aligned_textRequests r.password).append h3
  have h1 := (aligned_textRequests r.username).append h2
  cases slot with
  | title => exact ⟨[], _, h1, fun n => rfl⟩
  | username => exact ⟨textRequests r.title, _, h2, fun n => rfl⟩
  | password =>
    refine ⟨textRequests r.title ++ textRequests r.username, _, h3, fun n => ?_⟩
    rw [List.append_assoc]
    rfl
  | notes =>
    refine ⟨textRequests r.title ++ (textRequests r.username ++ textRequests r.password), _, h4,
      fun n => ?_⟩
    rw [List.append_assoc, List.append_assoc]
    rfl

theorem ListSlot.requests_around (slot : ListSlot) (r : Record Nat) :
    ∃ before after, AlignedTo 8 after ∧ ∀ ns, recordRequests (slot.set r ns) =
      before ++ (listRequests ns ++ after) := by
  have h2 := aligned_fieldRequests r.fields
  have h1 := (aligned_listRequests r.tags).append h2
  cases slot with
  | urls =>
    refine ⟨textRequests r.title ++ (textRequests r.username ++ (textRequests r.password ++
      textRequests r.notes)), _, h1, fun n => ?_⟩
    rw [List.append_assoc, List.append_assoc, List.append_assoc]
    rfl
  | tags =>
    refine ⟨textRequests r.title ++ (textRequests r.username ++ (textRequests r.password ++
      (textRequests r.notes ++ listRequests r.urls))), _, h2, fun n => ?_⟩
    rw [List.append_assoc, List.append_assoc, List.append_assoc, List.append_assoc]
    rfl

theorem TextSlot.set_get {σ : Type} (slot : TextSlot) (r : Record σ) : slot.set r (slot.get r) = r := by
  cases slot <;> rfl

theorem ListSlot.set_get {σ : Type} (slot : ListSlot) (r : Record σ) : slot.set r (slot.get r) = r := by
  cases slot <;> rfl

/-- **An edit adds at most its debt** to how far the rebuilt layout exceeds the live cursor. -/
theorem Edit.drift (edit : Edit) (r : Record Nat) (hafter : AlignedTo 8 after) {debt : Nat}
    (h : placeAll (placeAll q (recordRequests r)) after ≤ used + 8 * debt) :
    placeAll (placeAll q (recordRequests (edit.onLengths r))) after ≤
      placeAll used edit.requests + 8 * (debt + edit.debt r) := by
  cases edit with
  | favorite => exact h
  | text slot value =>
    obtain ⟨pre, post, hpost, haround⟩ := slot.requests_around r
    have hr := haround (slot.get r)
    rw [slot.set_get] at hr
    rw [hr, placeAll_append, placeAll_append, ← placeAll_append _ post] at h
    rw [Edit.onLengths, haround, placeAll_append, placeAll_append, ← placeAll_append _ post]
    exact text_drift (hpost.append hafter) h
  | list slot value =>
    obtain ⟨pre, post, hpost, haround⟩ := slot.requests_around r
    have hr := haround (slot.get r)
    rw [slot.set_get] at hr
    rw [hr, placeAll_append, placeAll_append, ← placeAll_append _ post] at h
    rw [Edit.onLengths, haround, placeAll_append, placeAll_append, ← placeAll_append _ post]
    have hdrift := list_drift (hpost.append hafter) (value.items.map List.length) h
    rwa [List.length_map] at hdrift

/-! ## The invariant of reachable vaults -/

theorem le_filledCapacity (n : Nat) : n ≤ filledCapacity 0 pvInitialRecordCapacity n ∧
    0 < filledCapacity 0 pvInitialRecordCapacity n := by
  induction n with
  | zero => exact ⟨Nat.zero_le _, by decide⟩
  | succ n ih =>
    rw [filledCapacity_succ, Nat.zero_add]
    exact ⟨lt_grownCapacity ih.2 ih.1, grownCapacity_pos ih.2⟩

section Reached

variable {Hash : Type}
variable {debt index : Nat} {vault vault' : Vault Hash} {now : Int64}
variable {zeroHash : Hash} {path : Bytes} {arenaMem vmkMem : SecureAlloc} {record : Record Slice}
  {protect : Bool}

/-- The lengths of the stored records. -/
def Vault.lengths (vault : Vault Hash) : List (Record Nat) := vault.records.map (Record.map Slice.len)

/-- The invariant of the vaults that the program builds: the slices lie in the arena, the ids
are distinct, the record array has the capacity that the number of records asks for, and the
rebuilt layout ends at most `8 * debt` bytes behind the cursor. -/
structure Rebuildable (debt : Nat) (vault : Vault Hash) : Prop where
  capacity_eq : vault.arena.capacity = pvArenaCapacity
  bounds : ∀ r ∈ vault.records, vault.arena.Bounds r
  ids_nodup : (vault.records.map Record.id).Nodup
  array_eq : vault.recordCapacity = filledCapacity 0 pvInitialRecordCapacity vault.records.length
  array_le : vault.recordCapacity * sizeofRecord ≤ vault.arena.used
  end_le : rebuiltEnd vault.lengths ≤ vault.arena.used + 8 * debt

theorem Rebuildable.capacity_pos (h : Rebuildable debt vault) :
    0 < vault.recordCapacity := by
  rw [h.array_eq]
  exact (le_filledCapacity _).2

/-- What `pv_model_init` leaves. -/
structure Fresh (vault : Vault Hash) : Prop extends vault.Empty where
  array_eq : vault.recordCapacity = pvInitialRecordCapacity
  used_eq : vault.arena.used = pvInitialRecordCapacity * sizeofRecord
  arena_eq : vault.arena.capacity = pvArenaCapacity
  writable : vault.arena.readonly = false
  created_eq : vault.createdMs = 0
  updated_eq : vault.updatedMs = 0

theorem pvModelInit_ok (h : pvModelInit zeroHash path arenaMem vmkMem = .ok vault) :
    Fresh vault := by
  rw [pvModelInit] at h
  split_ifs at h
  rcases arenaMem with _ | _ | _
  · rw [pvArenaInit, dif_neg (by decide)] at h
    dsimp only at h
    rcases vmkMem with _ | _ | _
    · dsimp only at h
      rw [show (8 : Nat) = 2 ^ 3 from rfl, pvArenaAlloc_eq _ (by decide) (by omega) rfl,
        dif_pos (by decide)] at h
      cases h
      exact ⟨⟨rfl, Nat.succ_pos 15⟩, rfl, rfl, rfl, rfl, rfl, rfl⟩
    · cases h
    · cases h
  · rw [pvArenaInit, dif_neg (by decide)] at h
    cases h
  · rw [pvArenaInit, dif_neg (by decide)] at h
    cases h

theorem pvModelInit_refused {status : PvStatus}
    (h : pvModelInit zeroHash path arenaMem vmkMem = .error status) :
    ¬status.Committed := by
  rw [pvModelInit] at h
  split at h
  · cases h
    decide
  · cases arenaMem <;> rw [pvArenaInit, dif_neg (by decide)] at h <;> dsimp only at h
    · cases vmkMem <;> dsimp only at h
      · split at h
        · cases h
          decide
        · cases h
      · cases h
        decide
      · cases h
        decide
    · cases h
      decide
    · cases h
      decide

theorem Fresh.rebuildable (h : Fresh vault) : Rebuildable 0 vault where
  capacity_eq := h.arena_eq
  bounds r hr := by rw [h.records_eq] at hr; cases hr
  ids_nodup := by rw [h.records_eq]; exact List.nodup_nil
  array_eq := by rw [h.array_eq, h.records_eq]; rfl
  array_le := by rw [h.array_eq, h.used_eq]
  end_le := by
    rw [Vault.lengths, h.records_eq, h.used_eq]
    exact Nat.le_add_right _ _

theorem Vault.Holds.lengths_eq {rs : List (Record Bytes)} (h : vault.Holds rs) :
    vault.lengths = rs.map Record.lengths := by
  rw [← h.view_eq, Vault.lengths, Vault.view, List.map_map]
  refine List.map_congr_left fun r hr => ?_
  obtain ⟨_, hheld⟩ := forall₂_mem_left h r hr
  exact hheld.bounds.lengths_eq.symm

/-- A decoded vault is laid out as the rebuilt one. -/
theorem Decoded.rebuildable {payload : Payload} (h : Decoded vault payload vault')
    (hfresh : Fresh vault) (hids : (payload.records.map Record.id).Nodup) :
    Rebuildable 0 vault' := by
  obtain ⟨filled, hfilled, rfl⟩ := h.filled
  have hholds : filled.Holds payload.records :=
    hfilled.holds [] (by rw [Vault.Holds, hfresh.records_eq]; exact List.Forall₂.nil)
  have hnone : vault.records.length = 0 := by rw [hfresh.records_eq, List.length_nil]
  have hlen : filled.records.length = payload.records.length := List.Forall₂.length_eq hholds
  have hcap := hfilled.capacity_eq
  have hused := hfilled.used_eq
  dsimp only at hcap hused
  rw [hnone, hfresh.array_eq] at hcap hused
  rw [hfresh.used_eq] at hused
  refine ⟨hfilled.extends_eq.capacity_eq.trans hfresh.arena_eq, ?_, ?_, ?_, ?_, ?_⟩
  · intro r hr
    obtain ⟨_, hheld⟩ := forall₂_mem_left hholds r hr
    exact hheld.bounds
  · show (filled.records.map Record.id).Nodup
    rw [hfilled.ids_eq, hfresh.records_eq]
    exact hids
  · show filled.recordCapacity = filledCapacity 0 _ filled.records.length
    rw [hcap, hlen]
  · show filled.recordCapacity * sizeofRecord ≤ filled.arena.used
    rw [hcap, hused, ← List.length_map Record.lengths]
    exact filledCapacity_le _ _ _ _ (le_refl _)
  · show rebuiltEnd filled.lengths ≤ filled.arena.used + 8 * 0
    rw [hholds.lengths_eq, hused]
    exact Nat.le_add_right _ _

/-! ## The steps keep the invariant -/

/-- The id of a new record is new. -/
theorem chooseId_new {records : List (Record Slice)} {source : Record Bytes}
    {draws : List (Block pvRecordIdBytes)} {id : Block pvRecordIdBytes}
    (h : chooseId records source draws = some (.ok id)) : id ∉ records.map Record.id := by
  have hfind : ∀ i, ¬(pvModelFindId records i).isSome = true → i ∉ records.map Record.id := by
    intro i hi hmem
    obtain ⟨r, hr, rfl⟩ := List.mem_map.mp hmem
    exact hi (List.find?_isSome.mpr ⟨r, hr, decide_eq_true rfl⟩)
  rw [chooseId] at h
  split_ifs at h with hzero hfound
  · induction draws with
    | nil => cases h
    | cons draw draws ih =>
      rw [drawId] at h
      split_ifs at h with htaken
      · exact ih h
      · cases h
        exact hfind _ fun hsome => htaken (.inr hsome)
  · cases h
  · cases h
    exact hfind _ hfound

/-- Shifting the start of the requests of a record by the debt. -/
theorem placeAll_debt {rs : List Request} (h : AlignedTo 8 rs) {p : Nat}
    (hle : p ≤ used + 8 * debt) : placeAll p rs ≤ placeAll used rs + 8 * debt := by
  rw [← placeAll_shift h (Nat.dvd_mul_right 8 debt)]
  exact placeAll_mono rs hle

theorem Added.rebuildable {r : Record Bytes} (h : Added vault r now vault')
    (hinv : Rebuildable debt vault) (hid : r.id ∉ vault.records.map Record.id) :
    Rebuildable debt vault' := by
  obtain ⟨stored, hrecords, hstored⟩ := h.records_eq
  have hused := h.used_eq
  have haligned := (aligned_growRequests vault.records.length vault.recordCapacity).append
    (aligned_recordRequests r.lengths)
  refine ⟨h.extends_eq.capacity_eq.trans hinv.capacity_eq, ?_, ?_, ?_, ?_, ?_⟩
  · intro r' hr'
    rw [hrecords, List.mem_append, List.mem_singleton] at hr'
    rcases hr' with hr' | rfl
    · exact (hinv.bounds r' hr').of_used_le h.extends_eq.used_le
    · exact hstored.bounds
  · rw [h.ids_eq]
    refine List.nodup_append.mpr ⟨hinv.ids_nodup, List.pairwise_singleton _ _, ?_⟩
    intro a ha b hb hab
    rw [List.mem_singleton.mp hb] at hab
    exact hid (by rwa [hab] at ha)
  · rw [h.recordCapacity_eq, h.length_eq, filledCapacity_succ, Nat.zero_add, hinv.array_eq]
  · rw [h.recordCapacity_eq, hused, addRequests, placeAll_append]
    exact le_trans (grownCapacity_le hinv.array_le) (le_placeAll _ _)
  · have hlengths : vault'.lengths = vault.lengths ++ [r.lengths] := by
      rw [Vault.lengths, hrecords, List.map_append, List.map_singleton, hstored.lengths_eq]
      rfl
    have hlast : rebuiltEnd vault'.lengths = placeAll (rebuiltEnd vault.lengths)
        (addRequests vault.records.length vault.recordCapacity r.lengths) := by
      rw [rebuiltEnd, hlengths, vaultRequests_append, placeAll_append, vaultRequests, vaultRequests,
        List.append_nil, Nat.zero_add, Vault.lengths, List.length_map, ← hinv.array_eq]
      rfl
    rw [hlast, hused]
    exact placeAll_debt haligned hinv.end_le

theorem set_split {α : Type} {xs : List α} {i : Nat} {x : α} (h : xs[i]? = some x) :
    ∃ pre post, xs = pre ++ x :: post ∧ ∀ y, xs.set i y = pre ++ y :: post := by
  obtain ⟨hlt, rfl⟩ := List.getElem?_eq_some_iff.mp h
  refine ⟨xs.take i, xs.drop (i + 1), ?_, fun y => List.set_eq_take_append_cons_drop.trans (if_pos hlt)⟩
  rw [← List.drop_eq_getElem_cons hlt, List.take_append_drop]

/-- Replacing one record keeps the invariant when the new record drifts by no more than the
debt. -/
theorem Rebuildable.replace {debt' : Nat} {record' : Record Slice} (hinv : Rebuildable debt vault)
    (hget : vault.records[index]? = some record)
    (hrecords : vault'.records = vault.records.set index record')
    (harray : vault'.recordCapacity = vault.recordCapacity)
    (hcap : vault'.arena.capacity = vault.arena.capacity)
    (hused : vault.arena.used ≤ vault'.arena.used) (hid : record'.id = record.id)
    (hbounds : vault'.arena.Bounds record')
    (hdrift : ∀ q after, AlignedTo 8 after →
      placeAll (placeAll q (recordRequests (record.map Slice.len))) after ≤
        vault.arena.used + 8 * debt →
      placeAll (placeAll q (recordRequests (record'.map Slice.len))) after ≤
        vault'.arena.used + 8 * debt') :
    Rebuildable debt' vault' := by
  obtain ⟨pre, post, hsplit, hset⟩ := set_split hget
  have hnew : vault'.records = pre ++ record' :: post := hrecords.trans (hset record')
  have hlen : vault'.records.length = vault.records.length := by
    rw [hnew, hsplit, List.length_append, List.length_append, List.length_cons, List.length_cons]
  refine ⟨hcap.trans hinv.capacity_eq, ?_, ?_, ?_, ?_, ?_⟩
  · intro r hr
    rw [hnew, List.mem_append, List.mem_cons] at hr
    have hold : ∀ r ∈ vault.records, vault'.arena.Bounds r := fun r hr =>
      (hinv.bounds r hr).of_used_le hused
    rw [hsplit] at hold
    rcases hr with hr | rfl | hr
    · exact hold r (List.mem_append_left _ hr)
    · exact hbounds
    · exact hold r (List.mem_append_right _ (List.mem_cons_of_mem _ hr))
  · have hids := hinv.ids_nodup
    rw [hsplit, List.map_append, List.map_cons, ← hid] at hids
    rw [hnew, List.map_append, List.map_cons]
    exact hids
  · rw [harray, hlen, hinv.array_eq]
  · rw [harray]
    exact le_trans hinv.array_le hused
  · obtain ⟨before, after, hafter, haround⟩ := vaultRequests_around
      (pre.map (Record.map Slice.len)) (post.map (Record.map Slice.len)) 0 pvInitialRecordCapacity
    have hend : ∀ r : Record Slice, rebuiltEnd ((pre ++ r :: post).map (Record.map Slice.len)) =
        placeAll (placeAll (placeAll (pvInitialRecordCapacity * sizeofRecord) before)
          (recordRequests (r.map Slice.len))) after := by
      intro r
      rw [rebuiltEnd, List.map_append, List.map_cons, haround, placeAll_append, placeAll_append]
    have hold := hinv.end_le
    rw [Vault.lengths, hsplit, hend] at hold
    rw [Vault.lengths, hnew, hend]
    exact hdrift _ _ hafter hold

theorem tombstone_sublist (r : Record Slice) (now : Int64) :
    (recordRequests ((tombstone r now).map Slice.len)).Sublist (recordRequests (r.map Slice.len)) := by
  have hrest : recordRequests ((tombstone r now).map Slice.len) = textRequests r.title.len ++ [] := rfl
  rw [hrest]
  exact List.Sublist.append (List.Sublist.refl _) (List.nil_sublist _)

theorem pvModelDelete_rebuildable (hinv : Rebuildable debt vault)
    (h : pvModelDelete vault index now protect = (.ok, vault')) : Rebuildable debt vault' := by
  rw [pvModelDelete] at h
  rcases hget : vault.records[index]? with _ | record
  · rw [hget] at h
    cases h
  · rw [hget] at h
    dsimp only at h
    split_ifs at h
    · cases h
    · cases h
    · cases h
    · obtain ⟨-, rfl⟩ := Prod.mk.inj h
      obtain ⟨hused, hcap, -⟩ :=
        Arena.wipeAll_frame record.secrets { vault.arena with readonly := false }
      have hmem := List.mem_of_getElem? hget
      refine hinv.replace hget rfl rfl hcap (le_of_eq hused.symm) rfl ?_ ?_
      · intro s hs
        rw [hused]
        -- what is left of the record is its title and null slices
        have hcases : s = record.title ∨ s = Slice.null := by
          simpa [Record.slices, Record.secrets, tombstone] using hs
        rcases hcases with rfl | rfl
        · exact hinv.bounds record hmem record.title (List.mem_cons_self ..)
        · exact Nat.zero_le _
      · intro q after _ hle
        rw [hused]
        exact le_trans (placeAll_mono after (placeAll_sublist (tombstone_sublist record now) q)) hle

theorem commandEdit_rebuildable {edit : Edit} (hinv : Rebuildable debt vault)
    (hget : vault.records[index]? = some record)
    (h : commandEdit vault index edit now protect = (.ok, vault')) :
    Rebuildable (debt + edit.debt (record.map Slice.len)) vault' := by
  rw [commandEdit, hget] at h
  dsimp only at h
  split_ifs at h
  · cases h
  · rcases protect with _ | _
    · cases h
    · rw [pvArenaSetReadwrite, if_pos rfl] at h
      dsimp only at h
      generalize hwritable : ({ vault.arena with readonly := false } : Arena) = writable at h
      rcases hrun : (applyEdit record edit).run.run writable with ⟨status | record', arena⟩
      · rw [hrun, applyEdit_error (by rw [← hwritable]) hrun] at h
        cases h
      · rw [hrun] at h
        subst hwritable
        obtain ⟨-, rfl⟩ := Prod.mk.inj h
        have happlied := applyEdit_ok rfl hrun
        have hused := happlied.used_eq
        refine hinv.replace hget rfl rfl happlied.capacity_eq ?_ happlied.id_eq ?_ ?_
        · rw [hused]
          exact le_placeAll _ _
        · intro s hs
          rcases happlied.slices s hs with hs | hs
          · refine le_trans (hinv.bounds record (List.mem_of_getElem? hget) s hs) ?_
            rw [hused]
            exact le_placeAll _ _
          · exact hs
        · intro q after hafter hle
          have hdrift := edit.drift (record.map Slice.len) hafter hle
          rw [← happlied.requests_eq] at hdrift
          rw [hused]
          exact hdrift

end Reached

end PVault
