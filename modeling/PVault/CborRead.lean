import PVault.CborCodec

/-!
# The decoder's readers (`src/cbor_codec.c`)

The parts of the decoder that touch no vault, put through the two judgements of
`PVault.Lib.Reader`: each reads back what the encoder of `PVault.CborCodec` writes, and
accepts nothing else.
-/

namespace PVault

open Binary Bump

variable {inp rest data : Bytes} {maximum : Nat}
variable {t createdMs updatedMs : Int64} {texts : List Bytes} {recordCount : Nat}

/-! ## The decoder's readers -/

/-- A time: an unsigned value that an `int64_t` can hold. -/
def readerMs : Reader PvStatus Int64 := do
  let value ← readerValue 0
  Reader.require (decide (value ≤ int64Max)) .errFormat
  pure value.toInt64

/-- `decode_field`. -/
def decodeField : Reader PvStatus (CustomField Bytes) := do
  let mapCount ← readerCount 5 3
  Reader.require (mapCount == 3) .errFormat
  readerExpectUint 0
  let name ← readerSlice 3 pvMaxFieldName
  Reader.require (name.length != 0) .errFormat
  readerExpectUint 1
  let value ← readerSlice 2 pvMaxFieldValue
  readerExpectUint 2
  let flags ← readerValue 0
  Reader.require (flagsAccepted flags 1) .errFormat
  pure ⟨name, value, flags.toUInt32⟩

/-- The reading part of `decode_record`: the temporary record. -/
def readRecord : Reader PvStatus (Record Bytes) := do
  let count ← readerCount 5 12
  Reader.require (count == 12) .errFormat
  readerExpectUint 0
  let id ← readerSlice 2 pvRecordIdBytes
  Reader.require (id.length == pvRecordIdBytes && !bytesAllZero id) .errFormat
  readerExpectUint 1
  let revision ← readerValue 0
  Reader.require (revision != 0) .errFormat
  readerExpectUint 2
  let createdMs ← readerMs
  readerExpectUint 3
  let updatedMs ← readerMs
  readerExpectUint 4
  let flags ← readerValue 0
  Reader.require (flagsAccepted flags 3) .errFormat
  readerExpectUint 5
  let title ← readerSlice 3 pvMaxTitle
  Reader.require (title.length != 0) .errFormat
  readerExpectUint 6
  let username ← readerSlice 3 pvMaxUsername
  readerExpectUint 7
  let password ← readerSlice 2 pvMaxPassword
  readerExpectUint 8
  let urlCount ← readerCount 4 pvMaxCollectionItems
  let urls ← Reader.many (readerSlice 3 pvMaxUrl) urlCount
  readerExpectUint 9
  let notes ← readerSlice 3 pvMaxNotes
  readerExpectUint 10
  let tagCount ← readerCount 4 pvMaxCollectionItems
  let tags ← Reader.many (readerSlice 3 pvMaxTag) tagCount
  readerExpectUint 11
  let fieldCount ← readerCount 4 pvMaxCollectionItems
  let fields ← Reader.many decodeField fieldCount
  pure
    { id := Block.ofBytes _ id
      revision, createdMs, updatedMs
      flags := flags.toUInt32
      title, username, password, notes, urls, tags, fields }

theorem readsBack_readerMs (h : 0 ≤ t) :
    Reader.ReadsBack readerMs (CborToken.head 0 t.toUInt64).bytes t := by
  have hseq : Reader.ReadsBack readerMs ((CborToken.head 0 t.toUInt64).bytes ++ ([] ++ [])) t :=
    (readsBack_head (by decide) _).bind
      ((Reader.readsBack_require _ (decide_eq_true (toUInt64_le_of_nonneg h))).bind
        (Reader.readsBack_pure _))
  rwa [List.append_nil, List.append_nil] at hseq

theorem ms_ok (h : readerMs.run inp = .ok (t, rest)) :
    inp = (CborToken.head 0 t.toUInt64).bytes ++ rest ∧ 0 ≤ t := by
  obtain ⟨v, mid, hvalue, hcheck⟩ := Reader.bind_ok h
  obtain ⟨hle, hpure⟩ := Reader.require_bind_ok hcheck
  obtain ⟨rfl, rfl⟩ := Reader.pure_ok hpure
  exact ⟨value_ok hvalue, toInt64_nonneg (of_decide_eq_true hle)⟩

/-- A text that passed validation reads back. -/
theorem readsBack_text {allowEmpty : Bool} (hlen : data.length ≤ maximum)
    (hmax : maximum < UInt64.size) (htext : textSliceValid data allowEmpty = true) :
    Reader.ReadsBack (readerSlice 3 maximum) (CborToken.blob 3 data).bytes data := by
  rw [textSliceValid, Bool.and_eq_true] at htext
  exact readsBack_slice (by decide) hlen (by omega) fun _ => htext.2

theorem readsBack_blob (hlen : data.length ≤ maximum) (hmax : maximum < UInt64.size) :
    Reader.ReadsBack (readerSlice 2 maximum) (CborToken.blob 2 data).bytes data :=
  readsBack_slice (by decide) hlen (by omega) fun h => absurd h (by decide)

theorem tokensBytes_textTokens (texts : List Bytes) :
    tokensBytes (textTokens texts) = texts.flatMap fun s => (CborToken.blob 3 s).bytes := by
  rw [textTokens, tokensBytes_flatMap]
  simp

theorem readsBack_texts (hmax : maximum < UInt64.size)
    (h : ∀ s ∈ texts, s.length ≤ maximum ∧ textSliceValid s true = true) :
    Reader.ReadsBack (Reader.many (readerSlice 3 maximum) texts.length)
      (tokensBytes (textTokens texts)) texts := by
  rw [tokensBytes_textTokens]
  exact Reader.readsBack_many texts fun s hs => readsBack_text (h s hs).1 hmax (h s hs).2

/-- **A written field is read back.** -/
theorem readsBack_decodeField {field : CustomField Bytes} (h : field.Valid) :
    Reader.ReadsBack decodeField (tokensBytes (fieldTokens field)) field := by
  have hname := length_ne_zero_of_text h.name_text
  have hflags : flagsAccepted field.flags.toUInt64 1 = true :=
    flagsAccepted_of_known (k := 1) (by omega) rfl rfl h.flags_known
  simp only [fieldTokens, List.flatten_cons, List.flatten_nil, tokensBytes_append, tokensBytes_cons,
    tokensBytes_nil, List.append_nil]
  refine (readsBack_count (by decide) (le_refl _) (by decide)).bind ?_
  refine (Reader.readsBack_require _ rfl).bind_nil ?_
  refine (readsBack_expectUint 0).bind ?_
  refine (readsBack_text h.name_le (by decide) h.name_text).bind ?_
  refine (Reader.readsBack_require _ (bne_iff_ne.mpr hname)).bind_nil ?_
  refine (readsBack_expectUint 1).bind ?_
  refine (readsBack_blob h.value_le (by decide)).bind ?_
  refine (readsBack_expectUint 2).bind ?_
  rw [← List.append_nil (CborToken.head 0 field.flags.toUInt64).bytes]
  refine (readsBack_head (by decide) _).bind ?_
  refine (Reader.readsBack_require _ hflags).bind_nil ?_
  rw [UInt32.toUInt32_toUInt64]
  exact Reader.readsBack_pure _

/-- **A written record is read back.** -/
theorem readsBack_readRecord {record : Record Bytes} (hok : pvModelValidateRecord record = .ok) :
    Reader.ReadsBack readRecord (tokensBytes (recordTokens record)) record := by
  obtain ⟨h, hrevision, hid⟩ := pvModelValidateRecord_ok.mp hok
  have hidOk : (record.id.bytes.length == pvRecordIdBytes && !bytesAllZero record.id.bytes) = true := by
    rw [record.id.length_eq, beq_self_eq_true, hid]
    rfl
  have hflags : flagsAccepted record.flags.toUInt64 3 = true :=
    flagsAccepted_of_known (k := 2) (by omega) rfl rfl h.flags_known
  have htitle := length_ne_zero_of_text h.title_text
  have hitems : pvMaxCollectionItems < UInt64.size := by decide
  have hfields : Reader.ReadsBack (Reader.many decodeField record.fields.length)
      (tokensBytes (record.fields.flatMap fieldTokens)) record.fields := by
    rw [tokensBytes_flatMap]
    exact Reader.readsBack_many record.fields fun f hf => readsBack_decodeField (h.fields_valid f hf)
  simp only [recordTokens, List.flatten_cons, List.flatten_nil, tokensBytes_append, tokensBytes_cons,
    tokensBytes_nil, List.append_nil]
  refine (readsBack_count (by decide) (le_refl _) (by decide)).bind ?_
  refine (Reader.readsBack_require _ rfl).bind_nil ?_
  refine (readsBack_expectUint 0).bind ?_
  refine (readsBack_blob (by rw [record.id.length_eq]) (by decide)).bind ?_
  refine (Reader.readsBack_require _ hidOk).bind_nil ?_
  refine (readsBack_expectUint 1).bind ?_
  refine (readsBack_head (by decide) _).bind ?_
  refine (Reader.readsBack_require _ (bne_iff_ne.mpr hrevision)).bind_nil ?_
  refine (readsBack_expectUint 2).bind ((readsBack_readerMs h.created_nonneg).bind ?_)
  refine (readsBack_expectUint 3).bind ((readsBack_readerMs h.updated_nonneg).bind ?_)
  refine (readsBack_expectUint 4).bind ((readsBack_head (by decide) _).bind ?_)
  refine (Reader.readsBack_require _ hflags).bind_nil ?_
  refine (readsBack_expectUint 5).bind ((readsBack_text h.title_le (by decide) h.title_text).bind ?_)
  refine (Reader.readsBack_require _ (bne_iff_ne.mpr htitle)).bind_nil ?_
  refine (readsBack_expectUint 6).bind ((readsBack_text h.username_le (by decide) h.username_text).bind ?_)
  refine (readsBack_expectUint 7).bind ((readsBack_blob h.password_le (by decide)).bind ?_)
  refine (readsBack_expectUint 8).bind ?_
  refine (readsBack_count (by decide) h.urls_le (lt_of_le_of_lt h.urls_le hitems)).bind ?_
  refine (readsBack_texts (by decide) h.urls_text).bind ?_
  refine (readsBack_expectUint 9).bind ((readsBack_text h.notes_le (by decide) h.notes_text).bind ?_)
  refine (readsBack_expectUint 10).bind ?_
  refine (readsBack_count (by decide) h.tags_le (lt_of_le_of_lt h.tags_le hitems)).bind ?_
  refine (readsBack_texts (by decide) h.tags_text).bind ?_
  refine (readsBack_expectUint 11).bind ?_
  refine (readsBack_count (by decide) h.fields_le (lt_of_le_of_lt h.fields_le hitems)).bind ?_
  rw [← List.append_nil (tokensBytes (record.fields.flatMap fieldTokens))]
  refine hfields.bind ?_
  rw [UInt32.toUInt32_toUInt64, Block.ofBytes_bytes]
  exact Reader.readsBack_pure _

/-! ## The readers accept nothing else -/

theorem text_ok (allowEmpty : Bool) (h : (readerSlice 3 maximum).run inp = .ok (data, rest))
    (hempty : allowEmpty = false → data.length ≠ 0) :
    inp = (CborToken.blob 3 data).bytes ++ rest ∧ data.length ≤ maximum ∧
      textSliceValid data allowEmpty = true := by
  obtain ⟨rfl, hle, htext⟩ := slice_ok h
  refine ⟨rfl, hle, ?_⟩
  rw [textSliceValid, htext rfl, Bool.and_true]
  rcases allowEmpty with _ | _
  · rw [Bool.false_or, decide_eq_true_eq]
    exact Nat.pos_of_ne_zero (hempty rfl)
  · rfl

theorem texts_ok {n : Nat}
    (h : (Reader.many (readerSlice 3 maximum) n).run inp = .ok (texts, rest)) :
    inp = tokensBytes (textTokens texts) ++ rest ∧ texts.length = n ∧
      ∀ s ∈ texts, s.length ≤ maximum ∧ textSliceValid s true = true := by
  have hone : Reader.Canonical (readerSlice 3 maximum) (fun s => (CborToken.blob 3 s).bytes)
      fun s => s.length ≤ maximum ∧ textSliceValid s true = true :=
    fun _ _ _ hrun => text_ok true hrun nofun
  obtain ⟨rfl, hlen, hall⟩ := Reader.canonical_many hone n _ _ _ h
  rw [tokensBytes_textTokens]
  exact ⟨rfl, hlen, hall⟩

/-- **Only valid fields are read, each from its own tokens.** -/
theorem canonical_decodeField :
    Reader.Canonical decodeField (fun field => tokensBytes (fieldTokens field))
      CustomField.Valid := by
  intro inp field rest h
  obtain ⟨count, _, hcount, h1⟩ := Reader.bind_ok h
  obtain ⟨rfl, -, -⟩ := count_ok hcount
  obtain ⟨hcount3, h2⟩ := Reader.require_bind_ok h1
  obtain rfl := beq_iff_eq.mp hcount3
  obtain ⟨_, rfl, h3⟩ := expectUint_bind_ok h2
  obtain ⟨name, _, hname, h4⟩ := Reader.bind_ok h3
  obtain ⟨hne, h5⟩ := Reader.require_bind_ok h4
  obtain ⟨rfl, hnameLe, hnameText⟩ := text_ok false hname fun _ => bne_iff_ne.mp hne
  obtain ⟨_, rfl, h6⟩ := expectUint_bind_ok h5
  obtain ⟨value, _, hvalue, h7⟩ := Reader.bind_ok h6
  obtain ⟨rfl, hvalueLe, -⟩ := slice_ok hvalue
  obtain ⟨_, rfl, h8⟩ := expectUint_bind_ok h7
  obtain ⟨flags, _, hflags, h9⟩ := Reader.bind_ok h8
  obtain rfl := value_ok hflags
  obtain ⟨haccepted, hpure⟩ := Reader.require_bind_ok h9
  obtain ⟨rfl, rfl⟩ := Reader.pure_ok hpure
  obtain ⟨hknown, hcast⟩ := known_of_flagsAccepted pvFieldSecret (k := 1) (by omega) rfl rfl haccepted
  refine ⟨?_, hnameLe, hvalueLe, hnameText, hknown⟩
  simp only [fieldTokens, List.flatten_cons, List.flatten_nil, tokensBytes_append, tokensBytes_cons,
    tokensBytes_nil, List.append_nil, List.append_assoc, hcast]

/-- **Only valid records are read, each from its own tokens.** -/
theorem canonical_readRecord :
    Reader.Canonical readRecord (fun record => tokensBytes (recordTokens record))
      fun record => pvModelValidateRecord record = .ok := by
  intro inp record rest h
  obtain ⟨count, _, hcount, h1⟩ := Reader.bind_ok h
  obtain ⟨rfl, -, -⟩ := count_ok hcount
  obtain ⟨hcount12, h2⟩ := Reader.require_bind_ok h1
  obtain rfl := beq_iff_eq.mp hcount12
  obtain ⟨_, rfl, h3⟩ := expectUint_bind_ok h2
  obtain ⟨id, _, hid, h4⟩ := Reader.bind_ok h3
  obtain ⟨rfl, -, -⟩ := slice_ok hid
  obtain ⟨hidOk, h5⟩ := Reader.require_bind_ok h4
  obtain ⟨_, rfl, h6⟩ := expectUint_bind_ok h5
  obtain ⟨revision, _, hrev, h7⟩ := Reader.bind_ok h6
  obtain rfl := value_ok hrev
  obtain ⟨hrevision, h8⟩ := Reader.require_bind_ok h7
  obtain ⟨_, rfl, h9⟩ := expectUint_bind_ok h8
  obtain ⟨created, _, hcreated, h10⟩ := Reader.bind_ok h9
  obtain ⟨rfl, hcreatedOk⟩ := ms_ok hcreated
  obtain ⟨_, rfl, h11⟩ := expectUint_bind_ok h10
  obtain ⟨updated, _, hupdated, h12⟩ := Reader.bind_ok h11
  obtain ⟨rfl, hupdatedOk⟩ := ms_ok hupdated
  obtain ⟨_, rfl, h13⟩ := expectUint_bind_ok h12
  obtain ⟨flags, _, hflags, h14⟩ := Reader.bind_ok h13
  obtain rfl := value_ok hflags
  obtain ⟨haccepted, h15⟩ := Reader.require_bind_ok h14
  obtain ⟨_, rfl, h16⟩ := expectUint_bind_ok h15
  obtain ⟨title, _, htitle, h17⟩ := Reader.bind_ok h16
  obtain ⟨hne, h18⟩ := Reader.require_bind_ok h17
  obtain ⟨rfl, htitleLe, htitleText⟩ := text_ok false htitle fun _ => bne_iff_ne.mp hne
  obtain ⟨_, rfl, h19⟩ := expectUint_bind_ok h18
  obtain ⟨username, _, husername, h20⟩ := Reader.bind_ok h19
  obtain ⟨rfl, husernameLe, husernameText⟩ := text_ok true husername nofun
  obtain ⟨_, rfl, h21⟩ := expectUint_bind_ok h20
  obtain ⟨password, _, hpassword, h22⟩ := Reader.bind_ok h21
  obtain ⟨rfl, hpasswordLe, -⟩ := slice_ok hpassword
  obtain ⟨_, rfl, h23⟩ := expectUint_bind_ok h22
  obtain ⟨urlCount, _, hurlCount, h24⟩ := Reader.bind_ok h23
  obtain ⟨rfl, hurlsLe, -⟩ := count_ok hurlCount
  obtain ⟨urls, _, hurls, h25⟩ := Reader.bind_ok h24
  obtain ⟨rfl, rfl, hurlsText⟩ := texts_ok hurls
  obtain ⟨_, rfl, h26⟩ := expectUint_bind_ok h25
  obtain ⟨notes, _, hnotes, h27⟩ := Reader.bind_ok h26
  obtain ⟨rfl, hnotesLe, hnotesText⟩ := text_ok true hnotes nofun
  obtain ⟨_, rfl, h28⟩ := expectUint_bind_ok h27
  obtain ⟨tagCount, _, htagCount, h29⟩ := Reader.bind_ok h28
  obtain ⟨rfl, htagsLe, -⟩ := count_ok htagCount
  obtain ⟨tags, _, htags, h30⟩ := Reader.bind_ok h29
  obtain ⟨rfl, rfl, htagsText⟩ := texts_ok htags
  obtain ⟨_, rfl, h31⟩ := expectUint_bind_ok h30
  obtain ⟨fieldCount, _, hfieldCount, h32⟩ := Reader.bind_ok h31
  obtain ⟨rfl, hfieldsLe, -⟩ := count_ok hfieldCount
  obtain ⟨fields, _, hfields, hpure⟩ := Reader.bind_ok h32
  obtain ⟨rfl, rfl, hfieldsValid⟩ := Reader.canonical_many canonical_decodeField _ _ _ _ hfields
  obtain ⟨rfl, rfl⟩ := Reader.pure_ok hpure
  obtain ⟨hknown, hcast⟩ := known_of_flagsAccepted (pvRecordDeleted ||| pvRecordFavorite) (k := 2)
    (by omega) rfl rfl haccepted
  rw [Bool.and_eq_true, beq_iff_eq, Bool.not_eq_true'] at hidOk
  have hidBytes := Block.bytes_ofBytes hidOk.1
  refine ⟨?_, pvModelValidateRecord_ok.mpr ⟨?_, bne_iff_ne.mp hrevision, ?_⟩⟩
  · simp only [recordTokens, List.flatten_cons, List.flatten_nil, tokensBytes_append,
      tokensBytes_cons, tokensBytes_nil, List.append_nil, List.append_assoc, hcast, hidBytes,
      tokensBytes_flatMap]
  · exact ⟨htitleLe, husernameLe, hpasswordLe, hnotesLe, hurlsLe, htagsLe, hfieldsLe, hcreatedOk,
      hupdatedOk, hknown, htitleText, husernameText, hnotesText, hurlsText, htagsText, hfieldsValid⟩
  · show bytesAllZero (Block.ofBytes _ id).bytes = false
    rw [hidBytes]
    exact hidOk.2

/-! ## The head of a payload

Read in three stages, because the decoder stores the generation and the device id in the
vault as soon as it has them. -/

/-- The map header, the schema version and the generation. -/
def readGeneration : Reader PvStatus UInt64 := do
  let mapCount ← readerCount 5 6
  Reader.require (mapCount == 6) .errFormat
  readerExpectUint 0
  readerExpectUint pvCborSchemaVersion
  readerExpectUint 1
  readerValue 0

/-- The device id. -/
def readDeviceId : Reader PvStatus Bytes := do
  readerExpectUint 2
  let deviceId ← readerSlice 2 pvDeviceIdBytes
  Reader.require (deviceId.length == pvDeviceIdBytes && !bytesAllZero deviceId) .errFormat
  pure deviceId

/-- The times of the vault and the number of its records. -/
def readTimes : Reader PvStatus (Int64 × Int64 × Nat) := do
  readerExpectUint 3
  let topCreated ← readerMs
  readerExpectUint 4
  let topUpdated ← readerMs
  readerExpectUint 5
  let recordCount ← readerCount 4 (pvMaxPlaintext / 64)
  pure (topCreated, topUpdated, recordCount)

/-- The tokens of each stage. -/
def generationTokens (generation : UInt64) : List CborToken :=
  [.head 5 (UInt64.ofNat 6), .head 0 0, .head 0 pvCborSchemaVersion, .head 0 1, .head 0 generation]

@[inherit_doc generationTokens]
def deviceIdTokens (deviceId : Bytes) : List CborToken := [.head 0 2, .blob 2 deviceId]

@[inherit_doc generationTokens]
def timesTokens (createdMs updatedMs : Int64) (recordCount : Nat) : List CborToken :=
  [.head 0 3, .head 0 createdMs.toUInt64, .head 0 4, .head 0 updatedMs.toUInt64, .head 0 5,
    .head 4 (UInt64.ofNat recordCount)]

theorem payloadBytes_eq (payload : Payload) :
    payloadBytes payload =
      tokensBytes (generationTokens payload.generation) ++
        (tokensBytes (deviceIdTokens payload.deviceId.bytes) ++
          (tokensBytes (timesTokens payload.createdMs payload.updatedMs payload.records.length) ++
            payload.records.flatMap fun r => tokensBytes (recordTokens r))) := by
  simp only [payloadBytes, payloadTokens, generationTokens, deviceIdTokens, timesTokens,
    List.flatten_cons, List.flatten_nil, tokensBytes_append, tokensBytes_cons, tokensBytes_nil,
    tokensBytes_flatMap, List.append_nil, List.append_assoc]

theorem readsBack_readGeneration (generation : UInt64) :
    Reader.ReadsBack readGeneration (tokensBytes (generationTokens generation)) generation := by
  simp only [generationTokens, tokensBytes_cons, tokensBytes_nil, List.append_nil]
  refine (readsBack_count (by decide) (le_refl _) (by decide)).bind ?_
  refine (Reader.readsBack_require _ rfl).bind_nil ?_
  refine (readsBack_expectUint 0).bind ((readsBack_expectUint _).bind ((readsBack_expectUint 1).bind ?_))
  exact readsBack_head (by decide) generation

theorem readsBack_readDeviceId {deviceId : Block pvDeviceIdBytes}
    (h : bytesAllZero deviceId.bytes = false) :
    Reader.ReadsBack readDeviceId (tokensBytes (deviceIdTokens deviceId.bytes)) deviceId.bytes := by
  have hok : (deviceId.bytes.length == pvDeviceIdBytes && !bytesAllZero deviceId.bytes) = true := by
    rw [deviceId.length_eq, beq_self_eq_true, h]
    rfl
  simp only [deviceIdTokens, tokensBytes_cons, tokensBytes_nil]
  refine (readsBack_expectUint 2).bind ?_
  refine (readsBack_blob (by rw [deviceId.length_eq]) (by decide)).bind ?_
  exact (Reader.readsBack_require _ hok).bind_nil (Reader.readsBack_pure _)

theorem readsBack_readTimes (hc : 0 ≤ createdMs) (hu : 0 ≤ updatedMs)
    (hn : recordCount ≤ pvMaxPlaintext / 64) :
    Reader.ReadsBack readTimes (tokensBytes (timesTokens createdMs updatedMs recordCount))
      (createdMs, updatedMs, recordCount) := by
  have hmax : pvMaxPlaintext / 64 < UInt64.size := by decide
  simp only [timesTokens, tokensBytes_cons, tokensBytes_nil]
  refine (readsBack_expectUint 3).bind ((readsBack_readerMs hc).bind ?_)
  refine (readsBack_expectUint 4).bind ((readsBack_readerMs hu).bind ?_)
  refine (readsBack_expectUint 5).bind ?_
  exact (readsBack_count (by decide) hn (lt_of_le_of_lt hn hmax)).bind (Reader.readsBack_pure _)

theorem readGeneration_ok {generation : UInt64}
    (h : readGeneration.run inp = .ok (generation, rest)) :
    inp = tokensBytes (generationTokens generation) ++ rest := by
  obtain ⟨count, _, hcount, h1⟩ := Reader.bind_ok h
  obtain ⟨rfl, -, -⟩ := count_ok hcount
  obtain ⟨hsix, h2⟩ := Reader.require_bind_ok h1
  obtain rfl := beq_iff_eq.mp hsix
  obtain ⟨_, rfl, h3⟩ := expectUint_bind_ok h2
  obtain ⟨_, rfl, h4⟩ := expectUint_bind_ok h3
  obtain ⟨_, rfl, h5⟩ := expectUint_bind_ok h4
  obtain rfl := value_ok h5
  simp only [generationTokens, tokensBytes_cons, tokensBytes_nil, List.append_nil, List.append_assoc]

theorem readDeviceId_ok {deviceId : Bytes} (h : readDeviceId.run inp = .ok (deviceId, rest)) :
    inp = tokensBytes (deviceIdTokens deviceId) ++ rest ∧ deviceId.length = pvDeviceIdBytes ∧
      bytesAllZero deviceId = false := by
  obtain ⟨_, rfl, h1⟩ := expectUint_bind_ok h
  obtain ⟨id, _, hid, h2⟩ := Reader.bind_ok h1
  obtain ⟨rfl, -, -⟩ := slice_ok hid
  obtain ⟨hok, hpure⟩ := Reader.require_bind_ok h2
  obtain ⟨rfl, rfl⟩ := Reader.pure_ok hpure
  rw [Bool.and_eq_true, beq_iff_eq, Bool.not_eq_true'] at hok
  refine ⟨?_, hok⟩
  simp only [deviceIdTokens, tokensBytes_cons, tokensBytes_nil, List.append_nil, List.append_assoc]

theorem readTimes_ok (h : readTimes.run inp = .ok ((createdMs, updatedMs, recordCount), rest)) :
    inp = tokensBytes (timesTokens createdMs updatedMs recordCount) ++ rest ∧ 0 ≤ createdMs ∧
      0 ≤ updatedMs ∧ recordCount ≤ pvMaxPlaintext / 64 := by
  obtain ⟨_, rfl, h1⟩ := expectUint_bind_ok h
  obtain ⟨created, _, hcreated, h2⟩ := Reader.bind_ok h1
  obtain ⟨rfl, hcreatedOk⟩ := ms_ok hcreated
  obtain ⟨_, rfl, h3⟩ := expectUint_bind_ok h2
  obtain ⟨updated, _, hupdated, h4⟩ := Reader.bind_ok h3
  obtain ⟨rfl, hupdatedOk⟩ := ms_ok hupdated
  obtain ⟨_, rfl, h5⟩ := expectUint_bind_ok h4
  obtain ⟨count, _, hcount, hpure⟩ := Reader.bind_ok h5
  obtain ⟨rfl, hle, -⟩ := count_ok hcount
  obtain ⟨heq, rfl⟩ := Reader.pure_ok hpure
  cases heq
  refine ⟨?_, hcreatedOk, hupdatedOk, hle⟩
  simp only [timesTokens, tokensBytes_cons, tokensBytes_nil, List.append_nil, List.append_assoc]

theorem fails_readerMs : Reader.Fails readerMs ReadError :=
  (fails_readerValue 0).bind fun _ => (Reader.fails_require _ (.inl rfl)).bind fun _ =>
    Reader.fails_pure _ _

theorem fails_readGeneration : Reader.Fails readGeneration ReadError :=
  (fails_readerCount 5 6).bind fun _ => (Reader.fails_require _ (.inl rfl)).bind fun _ =>
    (fails_readerExpectUint 0).bind fun _ => (fails_readerExpectUint _).bind fun _ =>
      (fails_readerExpectUint 1).bind fun _ => fails_readerValue 0

theorem fails_readDeviceId : Reader.Fails readDeviceId ReadError :=
  (fails_readerExpectUint 2).bind fun _ => (fails_readerSlice 2 _).bind fun _ =>
    (Reader.fails_require _ (.inl rfl)).bind fun _ => Reader.fails_pure _ _

theorem fails_readTimes : Reader.Fails readTimes ReadError :=
  (fails_readerExpectUint 3).bind fun _ => fails_readerMs.bind fun _ =>
    (fails_readerExpectUint 4).bind fun _ => fails_readerMs.bind fun _ =>
      (fails_readerExpectUint 5).bind fun _ => (fails_readerCount 4 _).bind fun _ =>
        Reader.fails_pure _ _

end PVault
