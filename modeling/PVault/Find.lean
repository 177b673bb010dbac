import PVault.Model
import PVault.Names
import Mathlib.Data.List.Nodup

/-!
# Looking a record up (`src/model.c`, `src/util.c`)

`pv_model_find` takes what the user typed. When that is the hexadecimal id of a live record,
it returns the record; otherwise it scans the live records for the query as a part of a
title, a user name, a URL or a tag, and counts those that have it.

The two searches share one result variable. `FindsLive` says what the lookup is for: it
never returns a deleted record, and it returns a record exactly when it counted one.
`pvModelFind_findsLive_iff` says when the lookup does that: unless the query is the id of a
deleted record, which the scan then finds in its result variable and never replaces.
-/

namespace PVault

open Binary

/-! ## Text -/

/-- `hex_value`, with `none` for -1. -/
def hexValue (c : UInt8) : Option Nat :=
  if 48 ≤ c ∧ c ≤ 57 then some (c.toNat - 48)
  else if 97 ≤ c ∧ c ≤ 102 then some (c.toNat - 97 + 10)
  else if 65 ≤ c ∧ c ≤ 70 then some (c.toNat - 65 + 10)
  else none

/-- The loop of `pv_hex_decode`: two digits a byte. -/
def hexDecodeLoop : Bytes → Option Bytes
  | h :: l :: rest =>
    match hexValue h, hexValue l with
    | some high, some low => (hexDecodeLoop rest).map (UInt8.ofNat (high * 16 + low) :: ·)
    | _, _ => none
  | _ => some []

/-- `pv_hex_decode`, for a C string of the given bytes. -/
def pvHexDecode (input : Bytes) (outputLen : Nat) : Option Bytes :=
  if input.length ≠ outputLen * 2 then none else hexDecodeLoop input

/-- `ascii_fold`. -/
def asciiFold (c : UInt8) : UInt8 := if 65 ≤ c ∧ c ≤ 90 then c + 32 else c

/-- How `pv_slice_contains_cstr` reads a byte. -/
def foldIf (asciiCasefold : Bool) (c : UInt8) : UInt8 := if asciiCasefold then asciiFold c else c

/-- The inner loop of `pv_slice_contains_cstr`: does the text stand at the front? -/
def textAtFront (asciiCasefold : Bool) : Bytes → Bytes → Bool
  | _, [] => true
  | [], _ :: _ => false
  | left :: data, right :: text =>
    if foldIf asciiCasefold left ≠ foldIf asciiCasefold right then false
    else textAtFront asciiCasefold data text

/-- The outer loop of `pv_slice_contains_cstr`, with the positions that are left. -/
def textWithin (asciiCasefold : Bool) (text : Bytes) : Nat → Bytes → Bool
  | 0, _ => false
  | n + 1, data =>
    if textAtFront asciiCasefold data text then true
    else textWithin asciiCasefold text n (data.drop 1)

/-- `pv_slice_contains_cstr`. -/
def pvSliceContainsCstr (data text : Bytes) (asciiCasefold : Bool) : Bool :=
  if text.length = 0 ∨ text.length > data.length then false
  else textWithin asciiCasefold text (data.length - text.length + 1) data

/-! ## The lookup -/

/-- `record_matches`. -/
def recordMatches (record : Record Bytes) (query : Bytes) : Bool :=
  pvSliceContainsCstr record.title query true || pvSliceContainsCstr record.username query true ||
    record.urls.any (pvSliceContainsCstr · query true) ||
    record.tags.any (pvSliceContainsCstr · query true)

/-- `(flags & PV_RECORD_DELETED) == 0`. -/
def Record.Live {σ : Type} (r : Record σ) : Prop := r.flags &&& pvRecordDeleted = 0

instance {σ : Type} (r : Record σ) : Decidable r.Live := inferInstanceAs (Decidable (_ = _))

/-- The scan of `pv_model_find`, from what has been found and counted so far. -/
def findLoop (arena : Arena) (query : Bytes) :
    List (Record Slice) → Option (Record Slice) → Nat → Option (Record Slice) × Nat
  | [], first, count => (first, count)
  | r :: rs, first, count =>
    if ¬r.Live ∨ recordMatches (r.map arena.deref) query = false then
      findLoop arena query rs first count
    else
      findLoop arena query rs (if first = none then some r else first) (count + 1)

/-- `pv_model_find`: the record and `*matches`. -/
def pvModelFind {Hash : Type} (vault : Vault Hash) (query : Bytes) : Option (Record Slice) × Nat :=
  if query.length = 0 then (none, 0)
  else
    match pvHexDecode query pvRecordIdBytes with
    | none => findLoop vault.arena query vault.records none 0
    | some id =>
      match pvModelFindId vault.records (Block.ofBytes _ id) with
      | none => findLoop vault.arena query vault.records none 0
      | some r =>
        -- a deleted record stays in `first`
        if r.Live then (some r, 1) else findLoop vault.arena query vault.records (some r) 0

/-- `shell_find`. -/
def shellFind {Hash : Type} (vault : Vault Hash) (query : Bytes) : Option (Record Slice) :=
  if (pvModelFind vault query).2 = 1 then (pvModelFind vault query).1 else none

/-! ## What the searches find -/

theorem textAtFront_iff (asciiCasefold : Bool) (data text : Bytes) :
    textAtFront asciiCasefold data text = true ↔
      text.map (foldIf asciiCasefold) <+: data.map (foldIf asciiCasefold) := by
  induction data, text using textAtFront.induct asciiCasefold with
  | case1 data => simp [textAtFront]
  | case2 right text => simp [textAtFront]
  | case3 left data right text hne =>
    have hhead : foldIf asciiCasefold right ≠ foldIf asciiCasefold left := fun h => hne h.symm
    simp [textAtFront, hne, List.cons_prefix_cons, hhead]
  | case4 left data right text heq ih =>
    rw [not_not] at heq
    simp [textAtFront, heq, List.cons_prefix_cons, ih]

theorem textWithin_iff (asciiCasefold : Bool) (text : Bytes) (n : Nat) (data : Bytes) :
    textWithin asciiCasefold text n data = true ↔
      ∃ i < n, textAtFront asciiCasefold (data.drop i) text = true := by
  induction n generalizing data with
  | zero => simp [textWithin]
  | succ n ih =>
    rw [textWithin]
    split_ifs with hfront
    · exact iff_of_true rfl ⟨0, Nat.succ_pos n, hfront⟩
    · rw [ih]
      refine ⟨fun ⟨i, hi, h⟩ => ⟨i + 1, Nat.succ_lt_succ hi, ?_⟩, fun ⟨i, hi, h⟩ => ?_⟩
      · rwa [List.drop_drop, Nat.add_comm] at h
      · cases i with
        | zero => exact absurd h hfront
        | succ i =>
          refine ⟨i, Nat.lt_of_succ_lt_succ hi, ?_⟩
          rwa [List.drop_drop, Nat.add_comm]

/-- The search finds a text exactly when it is a part of the data, up to the case of the
letters. -/
theorem pvSliceContainsCstr_iff {text : Bytes} (hne : text ≠ []) (data : Bytes)
    (asciiCasefold : Bool) :
    pvSliceContainsCstr data text asciiCasefold = true ↔
      text.map (foldIf asciiCasefold) <:+: data.map (foldIf asciiCasefold) := by
  have hpos : text.length ≠ 0 := fun h => hne (List.length_eq_zero_iff.mp h)
  rw [pvSliceContainsCstr]
  split_ifs with hlen
  · refine iff_of_false (by simp) fun h => ?_
    have := h.length_le
    rw [List.length_map, List.length_map] at this
    omega
  · rw [textWithin_iff]
    refine ⟨fun ⟨i, _, h⟩ => ?_, fun ⟨before, after, h⟩ => ?_⟩
    · rw [textAtFront_iff, List.map_drop] at h
      exact h.isInfix.trans (List.drop_suffix _ _).isInfix
    · have hdrop : (data.map (foldIf asciiCasefold)).drop before.length =
          text.map (foldIf asciiCasefold) ++ after := by
        rw [← h, List.append_assoc, List.drop_left]
      have hsum := congrArg List.length h
      simp only [List.length_append, List.length_map] at hsum
      refine ⟨before.length, by omega, (textAtFront_iff ..).mpr ?_⟩
      rw [List.map_drop, hdrop]
      exact List.prefix_append _ _

/-- A digit of either case is read as its lower-case form. -/
theorem hexValue_eq (c : UInt8) : hexValue c = lowercaseHexValue (asciiFold c) := by
  have hall : ∀ n < 256, hexValue (UInt8.ofNat n) =
      lowercaseHexValue (asciiFold (UInt8.ofNat n)) := by decide +kernel
  have hc := hall c.toNat c.toNat_lt
  rwa [UInt8.ofNat_toNat] at hc

theorem hexDecodeLoop_eq (input : Bytes) (heven : 2 ∣ input.length) :
    hexDecodeLoop input = parseHexBytes (input.map asciiFold) := by
  induction input using hexDecodeLoop.induct with
  | case1 h l rest high low hlow hhigh ih =>
    have heven' : 2 ∣ rest.length := by
      simp only [List.length_cons] at heven
      omega
    rw [hexDecodeLoop, hlow, hhigh, List.map_cons, List.map_cons, parseHexBytes, ← hexValue_eq,
      ← hexValue_eq, hlow, hhigh, ← ih heven']
  | case2 h l rest hnone =>
    rw [hexDecodeLoop, List.map_cons, List.map_cons, parseHexBytes, ← hexValue_eq, ← hexValue_eq]
    split <;> simp_all
  | case3 input hshape =>
    rcases input with _ | ⟨h, _ | ⟨l, rest⟩⟩
    · rfl
    · simp at heven
    · exact absurd rfl (hshape h l rest)

/-- A query is read as an id exactly when it is the hexadecimal form of the id, in any mix of
cases. -/
theorem pvHexDecode_eq_some {input out : Bytes} {outputLen : Nat} :
    pvHexDecode input outputLen = some out ↔
      out.length = outputLen ∧ input.map asciiFold = pvHexEncode out := by
  have hencode : (pvHexEncode out).length = out.length * 2 := by
    simp [pvHexEncode, List.length_flatMap]
  rw [pvHexDecode]
  split_ifs with hlen
  · refine iff_of_false (by simp) fun ⟨hout, hfold⟩ => hlen ?_
    rw [← hout, ← hencode, ← hfold, List.length_map]
  · rw [not_not] at hlen
    rw [hexDecodeLoop_eq _ ⟨outputLen, by omega⟩]
    refine ⟨fun h => ?_, fun ⟨_, h⟩ => by rw [h, parseHexBytes_pvHexEncode]⟩
    have hfold := (pvHexEncode_of_parse h).symm
    refine ⟨?_, hfold⟩
    have hcount := congrArg List.length hfold
    rw [List.length_map, hencode] at hcount
    omega

/-! ## What the lookup is for -/

/-- The query is the id in hexadecimal digits of either case. -/
def NamesId (query : Bytes) (id : Block pvRecordIdBytes) : Prop :=
  query.map asciiFold = pvHexEncode id.bytes

/-- The text contains the query, up to the case of ASCII letters. -/
def ContainsFolded (text query : Bytes) : Prop := query.map asciiFold <:+: text.map asciiFold

/-- The title, the user name, a URL or a tag of the record contains the query. -/
def Record.Mentions (r : Record Bytes) (query : Bytes) : Prop :=
  ContainsFolded r.title query ∨ ContainsFolded r.username query ∨
    (∃ url ∈ r.urls, ContainsFolded url query) ∨ ∃ tag ∈ r.tags, ContainsFolded tag query

instance (query : Bytes) (id : Block pvRecordIdBytes) : Decidable (NamesId query id) :=
  inferInstanceAs (Decidable (_ = _))

instance (text query : Bytes) : Decidable (ContainsFolded text query) :=
  inferInstanceAs (Decidable (_ <:+: _))

instance (r : Record Bytes) (query : Bytes) : Decidable (r.Mentions query) :=
  inferInstanceAs (Decidable (_ ∨ _))

section Lookup

variable {Hash : Type}

/-- The live records that mention the query, in the order of the vault. -/
def Vault.mentioning (vault : Vault Hash) (query : Bytes) : List (Record Slice) :=
  vault.records.filter fun r => r.Live ∧ (r.map vault.arena.deref).Mentions query

/-- **What a lookup is for**: `out` holds a live record or nothing, and nothing exactly when
no record was counted. The id of a live record finds that record alone; any other query finds
the first of the live records that mention it, and counts them. -/
structure FindsLive (vault : Vault Hash) (query : Bytes) (out : Option (Record Slice) × Nat) :
    Prop where
  none_iff : out.1 = none ↔ out.2 = 0
  live : ∀ r, out.1 = some r → r.Live
  by_id : ∀ r ∈ vault.records, r.Live → NamesId query r.id → out = (some r, 1)
  by_text : (∀ r ∈ vault.records, r.Live → ¬NamesId query r.id) →
    out = ((vault.mentioning query).head?, (vault.mentioning query).length)

theorem recordMatches_iff {query : Bytes} (hquery : query ≠ []) (r : Record Bytes) :
    recordMatches r query = true ↔ r.Mentions query := by
  have hfold : foldIf true = asciiFold := rfl
  simp only [recordMatches, Bool.or_eq_true, List.any_eq_true, pvSliceContainsCstr_iff hquery,
    hfold, Record.Mentions, ContainsFolded, or_assoc]

/-- The scan adds the records it finds to what it was given: the first of them when it was
given none, and their number. -/
theorem findLoop_eq (arena : Arena) {query : Bytes} (hquery : query ≠ [])
    (rs : List (Record Slice)) (first : Option (Record Slice)) (count : Nat) :
    findLoop arena query rs first count =
      (first.or (rs.filter fun r => r.Live ∧ (r.map arena.deref).Mentions query).head?,
        count + (rs.filter fun r => r.Live ∧ (r.map arena.deref).Mentions query).length) := by
  induction rs generalizing first count with
  | nil => simp [findLoop]
  | cons r rs ih =>
    have hskip : (¬r.Live ∨ recordMatches (r.map arena.deref) query = false) ↔
        ¬(r.Live ∧ (r.map arena.deref).Mentions query) := by
      rw [← Bool.not_eq_true, recordMatches_iff hquery, not_and_or]
    rw [findLoop]
    by_cases hfound : r.Live ∧ (r.map arena.deref).Mentions query
    · rw [if_neg (fun h => hskip.mp h hfound), ih, List.filter_cons_of_pos (by simpa using hfound)]
      cases first <;> simp <;> omega
    · rw [if_pos (hskip.mpr hfound), ih, List.filter_cons_of_neg (by simpa using hfound)]

theorem pvModelFindId_eq_some {records : List (Record Slice)} {id : Block pvRecordIdBytes}
    (hids : (records.map Record.id).Nodup) {r : Record Slice} :
    pvModelFindId records id = some r ↔ r ∈ records ∧ r.id = id := by
  rw [pvModelFindId]
  refine ⟨fun h => ⟨List.mem_of_find?_eq_some h, by simpa using List.find?_some h⟩, ?_⟩
  rintro ⟨hmem, rfl⟩
  obtain ⟨r', hr'⟩ : ∃ r', records.find? (fun x => x.id = r.id) = some r' := by
    rw [← Option.isSome_iff_exists, List.find?_isSome]
    exact ⟨r, hmem, by simp⟩
  have hid : r'.id = r.id := by simpa using List.find?_some hr'
  rw [hr', List.inj_on_of_nodup_map hids (List.mem_of_find?_eq_some hr') hmem hid]

/-- **What the lookup returns**: the live record with the id that the query names, or else
what the scan finds after the deleted record with that id, if there is one. -/
theorem pvModelFind_eq {vault : Vault Hash} (hids : (vault.records.map Record.id).Nodup)
    {query : Bytes} (hquery : query ≠ []) :
    (∀ r ∈ vault.records, NamesId query r.id →
      pvModelFind vault query = if r.Live then (some r, 1)
        else (some r, (vault.mentioning query).length)) ∧
    ((∀ r ∈ vault.records, ¬NamesId query r.id) →
      pvModelFind vault query =
        ((vault.mentioning query).head?, (vault.mentioning query).length)) := by
  have hlen : query.length ≠ 0 := fun h => hquery (List.length_eq_zero_iff.mp h)
  have hscan := findLoop_eq vault.arena hquery vault.records
  rw [pvModelFind, if_neg hlen]
  refine ⟨fun r hr hnames => ?_, fun hnone => ?_⟩
  · have hdecode : pvHexDecode query pvRecordIdBytes = some r.id.bytes :=
      pvHexDecode_eq_some.mpr ⟨r.id.length_eq, hnames⟩
    rw [hdecode]
    dsimp only
    rw [Block.ofBytes_bytes, (pvModelFindId_eq_some hids).mpr ⟨hr, rfl⟩]
    dsimp only
    split_ifs
    · rfl
    · rw [hscan, Option.some_or, Nat.zero_add, Vault.mentioning]
  · have hfind : ∀ id, pvHexDecode query pvRecordIdBytes = some id →
        pvModelFindId vault.records (Block.ofBytes _ id) = none := by
      intro id hid
      obtain ⟨hidlen, hfold⟩ := pvHexDecode_eq_some.mp hid
      rw [Option.eq_none_iff_forall_ne_some]
      intro r hr
      obtain ⟨hmem, hrid⟩ := (pvModelFindId_eq_some hids).mp hr
      refine hnone r hmem ?_
      rw [NamesId, hrid, Block.bytes_ofBytes hidlen, hfold]
    rcases hdecode : pvHexDecode query pvRecordIdBytes with _ | id
    · dsimp only
      rw [hscan, Option.none_or, Nat.zero_add, Vault.mentioning]
    · dsimp only
      rw [hfind id hdecode]
      dsimp only
      rw [hscan, Option.none_or, Nat.zero_add, Vault.mentioning]

theorem mentioning_live {vault : Vault Hash} {query : Bytes} {r : Record Slice}
    (h : (vault.mentioning query).head? = some r) : r.Live := by
  have hmem := List.mem_of_mem_head? (Option.mem_def.mpr h)
  rw [Vault.mentioning, List.mem_filter, decide_eq_true_iff] at hmem
  exact hmem.2.1

/-- **When the lookup does what it is for**: unless the query is the id of a deleted record.
That record is then returned, with the number of live records that mention its id. -/
theorem pvModelFind_findsLive_iff {vault : Vault Hash} (hids : (vault.records.map Record.id).Nodup)
    {query : Bytes} (hquery : query ≠ []) :
    FindsLive vault query (pvModelFind vault query) ↔
      ∀ r ∈ vault.records, NamesId query r.id → r.Live := by
  obtain ⟨hnamed, hother⟩ := pvModelFind_eq hids hquery
  refine ⟨fun h r hr hnames => ?_, fun hlive => ?_⟩
  · by_contra hdeleted
    have hout := hnamed r hr hnames
    rw [if_neg hdeleted] at hout
    exact hdeleted (h.live r (by rw [hout]))
  · by_cases hany : ∃ r ∈ vault.records, NamesId query r.id
    · obtain ⟨r, hr, hnames⟩ := hany
      have hrlive := hlive r hr hnames
      have hout := hnamed r hr hnames
      rw [if_pos hrlive] at hout
      have hsame : ∀ r' ∈ vault.records, NamesId query r'.id → r' = r := by
        intro r' hr' hnames'
        have hout' := hnamed r' hr' hnames'
        rw [if_pos (hlive r' hr' hnames'), hout, Prod.mk.injEq, Option.some.injEq] at hout'
        exact hout'.1.symm
      rw [hout]
      refine ⟨by simp, fun r' hr' => ?_, fun r' hr' _ hnames' => ?_, fun hno => ?_⟩
      · cases hr'
        exact hrlive
      · rw [hsame r' hr' hnames']
      · exact absurd hnames (hno r hr hrlive)
    · have hnone : ∀ r ∈ vault.records, ¬NamesId query r.id := fun r hr hn => hany ⟨r, hr, hn⟩
      rw [hother hnone]
      refine ⟨?_, fun r hr => mentioning_live hr, fun r hr _ hn => absurd hn (hnone r hr),
        fun _ => rfl⟩
      rw [List.head?_eq_none_iff, List.length_eq_zero_iff]

end Lookup

/-! ## A deleted id in a live title -/

/-- The id of the deleted record: sixteen bytes `11`. -/
def deletedId : Block pvRecordIdBytes := ⟨List.replicate 16 0x11, rfl⟩

/-- A deleted record, and a live one whose title is the deleted record's id in hexadecimal. -/
def deletedRecord : Record Slice :=
  { id := deletedId, revision := 2, createdMs := 1, updatedMs := 2, flags := pvRecordDeleted
    title := ⟨32, 1⟩, username := Slice.null, password := Slice.null, notes := Slice.null
    urls := [], tags := [], fields := [] }

@[inherit_doc deletedRecord]
def lookalike : Record Slice :=
  { deletedRecord with
    id := ⟨List.replicate 16 0x22, rfl⟩
    revision := 1
    flags := 0
    title := ⟨0, 32⟩ }

/-- A vault with the two records. -/
def lookupVault : Vault Unit :=
  { arena :=
      { capacity := 33
        base := ⟨pvHexEncode deletedId.bytes ++ [0x78], rfl⟩
        used := 33
        readonly := false
        used_le := le_refl _
        capacity_le := by decide }
    vaultId := Block.zero _
    deviceId := Block.zero _
    generation := 1
    createdMs := 1
    updatedMs := 2
    records := [deletedRecord, lookalike]
    recordCapacity := pvInitialRecordCapacity
    vmk := Block.zero _
    sourceHash := ()
    dirty := false
    path := [] }

/-- The id of the deleted record finds the deleted record, counted as the one live record
that mentions the id, and `shell_find` hands it out. -/
theorem pvModelFind_lookupVault :
    (lookupVault.records.map Record.id).Nodup ∧ pvHexEncode deletedId.bytes ≠ [] ∧
    pvModelFind lookupVault (pvHexEncode deletedId.bytes) = (some deletedRecord, 1) ∧
    shellFind lookupVault (pvHexEncode deletedId.bytes) = some deletedRecord ∧
    ¬FindsLive lookupVault (pvHexEncode deletedId.bytes)
      (pvModelFind lookupVault (pvHexEncode deletedId.bytes)) := by
  have hfind : pvModelFind lookupVault (pvHexEncode deletedId.bytes) = (some deletedRecord, 1) := by
    decide +kernel
  refine ⟨by decide, by decide, hfind, ?_, fun h => ?_⟩
  · rw [shellFind, hfind]
    rfl
  · exact absurd (h.live deletedRecord (by rw [hfind])) (by decide)

/-- The id of the live record finds the live record. -/
theorem pvModelFind_findsLive_lookalike :
    FindsLive lookupVault (pvHexEncode lookalike.id.bytes)
      (pvModelFind lookupVault (pvHexEncode lookalike.id.bytes)) :=
  (pvModelFind_findsLive_iff (by decide) (by decide)).mpr (by decide)

end PVault
