import PVault.Stored

/-!
# The layout of a vault

Where the records of a vault end up when they are added one after the other, as the decoder
does, is a matter of their lengths alone: `vaultRequests` lists the requests, array doublings
included, and placing them gives the cursor. `Filled` is the effect of such a sequence of
additions on the vault.
-/

namespace PVault

open Binary Bump

variable {recordCount recordCapacity : Nat}

/-- The requests of adding records with the given lengths to an array of `recordCount`
records and capacity `recordCapacity`. -/
def vaultRequests : Nat → Nat → List (Record Nat) → List Request
  | _, _, [] => []
  | recordCount, recordCapacity, r :: rs =>
    addRequests recordCount recordCapacity r ++
      vaultRequests (recordCount + 1) (grownCapacity recordCount recordCapacity) rs

/-- The capacity of the record array after `n` more records. -/
def filledCapacity : Nat → Nat → Nat → Nat
  | _, recordCapacity, 0 => recordCapacity
  | recordCount, recordCapacity, n + 1 =>
    filledCapacity (recordCount + 1) (grownCapacity recordCount recordCapacity) n

/-- The lengths of the texts of a record. -/
def Record.lengths (r : Record Bytes) : Record Nat := r.map List.length

theorem grownCapacity_pos (h : 0 < recordCapacity) :
    0 < grownCapacity recordCount recordCapacity := by
  rw [grownCapacity]
  split_ifs
  · exact h
  · omega

/-- A grown array has been placed. -/
theorem grownCapacity_le {p : Nat} (h : recordCapacity * sizeofRecord ≤ p) :
    grownCapacity recordCount recordCapacity * sizeofRecord ≤
      placeAll p (growRequests recordCount recordCapacity) := by
  rw [grownCapacity, growRequests]
  split_ifs
  · exact h
  · rw [placeAll_cons, placeAll_nil, place, arrayRequest]
    exact Nat.le_add_left _ _

theorem lt_grownCapacity (hpos : 0 < recordCapacity) (h : recordCount ≤ recordCapacity) :
    recordCount < grownCapacity recordCount recordCapacity := by
  rw [grownCapacity]
  split_ifs
  · assumption
  · omega

section Filled

variable {Hash : Type}
variable {vault vault' : Vault Hash} {r : Record Bytes} {now : Int64}

/-- `vault'` is `vault` with the records `rs` added one after the other. -/
structure Filled (vault : Vault Hash) (rs : List (Record Bytes)) (vault' : Vault Hash) : Prop where
  holds : ∀ rs₀, vault.Holds rs₀ → vault'.Holds (rs₀ ++ rs)
  ids_eq : vault'.records.map Record.id = vault.records.map Record.id ++ rs.map Record.id
  extends_eq : vault.arena.Extends vault'.arena
  used_eq : vault'.arena.used = placeAll vault.arena.used
    (vaultRequests vault.records.length vault.recordCapacity (rs.map Record.lengths))
  capacity_eq : vault'.recordCapacity =
    filledCapacity vault.records.length vault.recordCapacity rs.length
  rest_eq : vault' = { vault with
    arena := vault'.arena
    records := vault'.records
    recordCapacity := vault'.recordCapacity
    dirty := vault'.dirty
    updatedMs := vault'.updatedMs }

theorem Filled.refl (vault : Vault Hash) : Filled vault [] vault where
  holds rs₀ h := by rwa [List.append_nil]
  ids_eq := (List.append_nil _).symm
  extends_eq := Arena.ExtendsBut.refl _
  used_eq := rfl
  capacity_eq := rfl
  rest_eq := rfl

theorem Added.ids_eq (h : Added vault r now vault') :
    vault'.records.map Record.id = vault.records.map Record.id ++ [r.id] := by
  obtain ⟨stored, hrecords, hstored⟩ := h.records_eq
  rw [hrecords, List.map_append, List.map_cons, List.map_nil, hstored.id]

theorem Added.length_eq (h : Added vault r now vault') :
    vault'.records.length = vault.records.length + 1 := by
  obtain ⟨stored, hrecords, -⟩ := h.records_eq
  rw [hrecords, List.length_append, List.length_singleton]

theorem Added.recordCapacity_eq (h : Added vault r now vault') :
    vault'.recordCapacity = grownCapacity vault.records.length vault.recordCapacity := by
  rw [h.rest_eq]

/-- One record more in front of a sequence. -/
theorem Added.filled {mid : Vault Hash} {rs : List (Record Bytes)} (h : Added vault r now mid)
    (hrest : Filled mid rs vault') :
    Filled vault (r :: rs) vault' where
  holds rs₀ hrs₀ := by
    have hall := hrest.holds _ (h.holds hrs₀)
    rwa [List.append_assoc, List.singleton_append] at hall
  ids_eq := by
    rw [hrest.ids_eq, h.ids_eq, List.append_assoc, List.singleton_append, List.map_cons]
  extends_eq := h.extends_eq.trans hrest.extends_eq
  used_eq := by
    rw [hrest.used_eq, h.used_eq, h.length_eq, h.recordCapacity_eq, List.map_cons, vaultRequests,
      placeAll_append, Record.lengths]
  capacity_eq := by
    rw [hrest.capacity_eq, h.length_eq, h.recordCapacity_eq, List.length_cons, filledCapacity]
  rest_eq := by
    rw [hrest.rest_eq, h.rest_eq]

end Filled

/-! ## Sizes -/

/-- The bytes a text takes: its own and a terminating zero, none when it is empty. -/
def textSize (len : Nat) : Nat := if len = 0 then 0 else len + 1

/-- The bytes of a list of texts, from the start of its array. -/
def listSize (lens : List Nat) : Nat := lens.length * sizeofSlice + (lens.map textSize).sum

theorem placeAll_textRequests (p len : Nat) : placeAll p (textRequests len) = p + textSize len := by
  rw [textRequests, textSize]
  split_ifs
  · rfl
  · rw [placeAll_cons, placeAll_nil, place, byteRequest, alignUp_one]

theorem placeAll_texts (lens : List Nat) :
    ∀ p, placeAll p (lens.flatMap textRequests) = p + (lens.map textSize).sum := by
  induction lens with
  | nil => intro p; rfl
  | cons len lens ih =>
    intro p
    rw [List.flatMap_cons, placeAll_append, placeAll_textRequests, ih, List.map_cons, List.sum_cons,
      Nat.add_assoc]

theorem placeAll_listRequests {lens : List Nat} (h : lens.length ≠ 0) (p : Nat) :
    placeAll p (listRequests lens) = alignUp 8 p + listSize lens := by
  rw [listRequests, if_neg h, placeAll_cons, placeAll_texts, place, arrayRequest, listSize,
    Nat.add_assoc]

theorem le_listSize {lens : List Nat} (h : lens.length ≠ 0) : 16 ≤ listSize lens := by
  rw [listSize, sizeofSlice]
  omega

theorem aligned_textRequests (len : Nat) : AlignedTo 8 (textRequests len) := by
  rw [textRequests]
  split_ifs
  · exact List.forall_mem_nil _
  · exact List.forall_mem_singleton.mpr (Nat.one_dvd 8)

theorem aligned_flatMap {α : Type} {f : α → List Request} (h : ∀ x, AlignedTo 8 (f x))
    (xs : List α) : AlignedTo 8 (xs.flatMap f) := by
  intro r hr
  obtain ⟨x, -, hx⟩ := List.mem_flatMap.mp hr
  exact h x r hx

theorem aligned_listRequests (lens : List Nat) : AlignedTo 8 (listRequests lens) := by
  rw [listRequests]
  split_ifs
  · exact List.forall_mem_nil _
  · exact List.forall_mem_cons.mpr ⟨Nat.dvd_refl 8, aligned_flatMap aligned_textRequests lens⟩

theorem aligned_fieldRequests (fields : List (CustomField Nat)) :
    AlignedTo 8 (fieldRequests fields) := by
  rw [fieldRequests]
  split_ifs
  · exact List.forall_mem_nil _
  · refine List.forall_mem_cons.mpr ⟨Nat.dvd_refl 8, aligned_flatMap (fun field => ?_) fields⟩
    exact (aligned_textRequests field.name).append (aligned_textRequests field.value)

theorem aligned_recordRequests (r : Record Nat) : AlignedTo 8 (recordRequests r) :=
  (aligned_textRequests _).append ((aligned_textRequests _).append ((aligned_textRequests _).append
    ((aligned_textRequests _).append ((aligned_listRequests _).append ((aligned_listRequests _).append
      (aligned_fieldRequests _))))))

theorem aligned_growRequests (recordCount recordCapacity : Nat) :
    AlignedTo 8 (growRequests recordCount recordCapacity) := by
  rw [growRequests]
  split_ifs
  · exact List.forall_mem_nil _
  · exact List.forall_mem_singleton.mpr (Nat.dvd_refl 8)

theorem aligned_vaultRequests (rs : List (Record Nat)) :
    ∀ recordCount recordCapacity, AlignedTo 8 (vaultRequests recordCount recordCapacity rs) := by
  induction rs with
  | nil => intro _ _; exact List.forall_mem_nil _
  | cons r rs ih =>
    intro recordCount recordCapacity
    exact ((aligned_growRequests _ _).append (aligned_recordRequests r)).append (ih _ _)

/-! ## One record among the others -/

theorem vaultRequests_append (rs ss : List (Record Nat)) :
    ∀ recordCount recordCapacity, vaultRequests recordCount recordCapacity (rs ++ ss) =
      vaultRequests recordCount recordCapacity rs ++
        vaultRequests (recordCount + rs.length) (filledCapacity recordCount recordCapacity rs.length)
          ss := by
  induction rs with
  | nil => intro _ _; rfl
  | cons r rs ih =>
    intro recordCount recordCapacity
    rw [List.cons_append, vaultRequests, ih, vaultRequests, List.append_assoc, List.length_cons,
      filledCapacity, Nat.add_right_comm, Nat.add_assoc recordCount]

theorem filledCapacity_succ (n : Nat) : ∀ recordCount recordCapacity,
    filledCapacity recordCount recordCapacity (n + 1) =
      grownCapacity (recordCount + n) (filledCapacity recordCount recordCapacity n) := by
  induction n with
  | zero => intro _ _; rfl
  | succ n ih =>
    intro recordCount recordCapacity
    rw [filledCapacity, ih, filledCapacity, Nat.add_right_comm, Nat.add_assoc recordCount]

/-- The requests of a vault around one of its records do not depend on that record. -/
theorem vaultRequests_around (pre post : List (Record Nat)) (recordCount recordCapacity : Nat) :
    ∃ before after, AlignedTo 8 after ∧ ∀ r : Record Nat,
      vaultRequests recordCount recordCapacity (pre ++ r :: post) =
        before ++ (recordRequests r ++ after) := by
  refine ⟨vaultRequests recordCount recordCapacity pre ++ growRequests (recordCount + pre.length)
      (filledCapacity recordCount recordCapacity pre.length),
    vaultRequests (recordCount + pre.length + 1) (grownCapacity (recordCount + pre.length)
      (filledCapacity recordCount recordCapacity pre.length)) post,
    aligned_vaultRequests post _ _, fun r => ?_⟩
  rw [vaultRequests_append, vaultRequests, addRequests, List.append_assoc, List.append_assoc]

/-- The record array and its predecessors are part of the layout. -/
theorem filledCapacity_le (rs : List (Record Nat)) :
    ∀ recordCount recordCapacity p, recordCapacity * sizeofRecord ≤ p →
      filledCapacity recordCount recordCapacity rs.length * sizeofRecord ≤
        placeAll p (vaultRequests recordCount recordCapacity rs) := by
  induction rs with
  | nil => intro _ _ p h; exact h
  | cons r rs ih =>
    intro recordCount recordCapacity p h
    rw [List.length_cons, filledCapacity, vaultRequests, placeAll_append]
    refine ih _ _ _ (le_trans (grownCapacity_le h) ?_)
    rw [addRequests, placeAll_append]
    exact le_placeAll _ _

end PVault
