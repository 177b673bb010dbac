import PVault.CborRead
import PVault.Layout

/-!
# The payload decoder (`src/cbor_codec.c`)

`pv_cbor_decode` reads a payload into an empty vault, adding one record after the other
through `pv_model_add_record`. libcbor appears only as `cbor_stream_decode`, the parameter
`streamDecode` of the preliminary well-formedness pass.

`pvCborDecode_payloadBytes` is the direction from bytes the encoder writes: they are accepted
whenever the vault they describe fits the arena, and refused with `PV_ERR_LIMIT` when it does
not. `pvCborDecode_ok` is the converse: whatever is accepted is what the encoder writes.
-/

namespace PVault

open Binary Bump

/-! ## The decoder -/

section Decoder

variable {Hash : Type}
variable {source : Record Bytes} {payload : Payload} {vault vault' : Vault Hash}

/-- What a run of the decoder asks of its surroundings. -/
structure DecodeEnv where
  /-- `cbor_stream_decode`: the bytes of the first item, when there is a complete one -/
  streamDecode : Bytes → Option Nat
  /-- `pv_now_ms`, when the `n`-th record is added -/
  clock : Nat → Int64
  /-- the answer of `sodium_mprotect_readwrite` -/
  readwrite : Bool
  /-- the answer of `sodium_mprotect_readonly` -/
  readonly : Bool

/-- The loop of `libcbor_well_formed`; it drops at least a byte each time, so that a fuel of
as many steps as there are bytes is never exhausted. -/
def wellFormedLoop (streamDecode : Bytes → Option Nat) : Nat → Bytes → Bool
  | 0, inp => inp.isEmpty
  | fuel + 1, inp =>
    if inp.isEmpty then true
    else
      match streamDecode inp with
      | none => false
      | some read =>
        if read = 0 ∨ read > inp.length then false
        else wellFormedLoop streamDecode fuel (inp.drop read)

/-- `libcbor_well_formed`. -/
def libcborWellFormed (streamDecode : Bytes → Option Nat) (input : Bytes) : Bool :=
  wellFormedLoop streamDecode input.length input

/-- `decode_record`: the status, what is left of the input, and the vault. The record's id is
not zero, so `pv_model_add_record` draws none. -/
def decodeRecord (env : DecodeEnv) (inp : Bytes) (vault : Vault Hash) :
    Option (PvStatus × Bytes × Vault Hash) :=
  match readRecord.run inp with
  | .error status => some (if status = .ok then .errFormat else status, inp, vault)
  | .ok (temporary, rest) =>
    match pvModelAddRecord vault temporary (env.clock vault.records.length) [] env.readwrite with
    | none => none
    | some (status, vault) =>
      some (if status = .errExists then .errFormat else status, rest, vault)

/-- The record loop of `pv_cbor_decode`. -/
def decodeRecords (env : DecodeEnv) :
    Nat → Bytes → Vault Hash → Option (PvStatus × Bytes × Vault Hash)
  | 0, inp, vault => some (.ok, inp, vault)
  | n + 1, inp, vault =>
    match decodeRecord env inp vault with
    | none => none
    | some (status, rest, vault) =>
      if status = .ok then decodeRecords env n rest vault else some (status, rest, vault)

/-- `pv_cbor_decode` after the head of the payload has been read. -/
def decodeBody (env : DecodeEnv) (topCreated topUpdated : Int64) (recordCount : Nat)
    (inp : Bytes) (vault : Vault Hash) : Option (PvStatus × Vault Hash) :=
  match decodeRecords env recordCount inp vault with
  | none => none
  | some (status, rest, vault) =>
    if status ≠ .ok then some (status, vault)
    else if rest ≠ [] then some (.errFormat, vault)
    else
      let (status, arena) := pvArenaSetReadonly vault.arena env.readonly
      some (status, { vault with arena, createdMs := topCreated, updatedMs := topUpdated, dirty := false })

/-- `pv_cbor_decode`: the status and the vault. -/
def pvCborDecode (env : DecodeEnv) (input : Bytes) (vault : Vault Hash) :
    Option (PvStatus × Vault Hash) :=
  if input.length = 0 ∨ input.length > pvMaxPlaintext ∨ vault.records.length ≠ 0 then
    some (.errUsage, vault)
  else if libcborWellFormed env.streamDecode input = false then some (.errFormat, vault)
  else
    match readGeneration.run input with
    | .error status => some (status, vault)
    | .ok (generation, rest) =>
      let vault := { vault with generation }
      match readDeviceId.run rest with
      | .error status => some (status, vault)
      | .ok (deviceId, rest) =>
        let vault := { vault with deviceId := Block.ofBytes _ deviceId }
        -- the source checks the copy once more
        if bytesAllZero vault.deviceId.bytes then some (.errFormat, vault)
        else
          match readTimes.run rest with
          | .error status => some (status, vault)
          | .ok ((topCreated, topUpdated, recordCount), rest) =>
            decodeBody env topCreated topUpdated recordCount rest vault

/-! ## Records -/

/-- A source with an id of its own keeps it, unless it is taken. -/
theorem chooseId_own {records : List (Record Slice)} {draws : List (Block pvRecordIdBytes)}
    (hid : bytesAllZero source.id.bytes = false) :
    chooseId records source draws =
      if source.id ∈ records.map Record.id then some (.error .errExists) else some (.ok source.id) := by
  have hfind : (pvModelFindId records source.id).isSome = true ↔ source.id ∈ records.map Record.id := by
    rw [pvModelFindId, List.find?_isSome, List.mem_map]
    simp only [decide_eq_true_eq]
  rw [chooseId, if_neg (by rw [hid]; decide)]
  by_cases hmem : source.id ∈ records.map Record.id
  · rw [if_pos (hfind.mpr hmem), if_pos hmem]
  · rw [if_neg (fun h => hmem (hfind.mp h)), if_neg hmem]

/-- A source with a revision and an id is stored as it is. -/
theorem storedRecord_own (hrev : source.revision ≠ 0) (now : Int64) :
    storedRecord source source.id now = source := by
  rw [storedRecord, if_neg hrev, if_neg (fun h => hrev h.1), if_neg (fun h => hrev h.1)]

/-- **The records the encoder wrote are decoded** into any vault they fit and whose ids they
do not repeat; when they do not fit, the decoder fails with `PV_ERR_LIMIT`. -/
theorem decodeRecords_flatMap (env : DecodeEnv) (rest : Bytes) (rs : List (Record Bytes))
    (hvalid : ∀ r ∈ rs, pvModelValidateRecord r = .ok) :
    ∀ vault : Vault Hash, 0 < vault.recordCapacity →
      (vault.arena.readonly = true → env.readwrite = true) →
      (vault.records.map Record.id ++ rs.map Record.id).Nodup →
      (placeAll vault.arena.used (vaultRequests vault.records.length vault.recordCapacity
          (rs.map Record.lengths)) ≤ vault.arena.capacity →
        ∃ vault', decodeRecords env rs.length
            ((rs.flatMap fun r => tokensBytes (recordTokens r)) ++ rest) vault =
              some (.ok, rest, vault') ∧ Filled vault rs vault') ∧
      (vault.arena.capacity < placeAll vault.arena.used (vaultRequests vault.records.length
          vault.recordCapacity (rs.map Record.lengths)) →
        ∃ rest' vault', decodeRecords env rs.length
            ((rs.flatMap fun r => tokensBytes (recordTokens r)) ++ rest) vault =
              some (.errLimit, rest', vault')) := by
  induction rs with
  | nil =>
    intro vault _ _ _
    refine ⟨fun _ => ⟨vault, rfl, Filled.refl vault⟩, fun hover => ?_⟩
    exact absurd vault.arena.used_le (Nat.not_le.mpr hover)
  | cons r rs ih =>
    intro vault hpos hprot hids
    obtain ⟨hr, hrs⟩ := List.forall_mem_cons.mp hvalid
    obtain ⟨hrecord, hrev, hid⟩ := pvModelValidateRecord_ok.mp hr
    -- the id is new, so the record is added as it is
    have hnew : r.id ∉ vault.records.map Record.id := by
      intro hmem
      rw [List.map_cons, List.nodup_append] at hids
      exact hids.2.2 _ hmem _ (List.mem_cons_self ..) rfl
    have hchoose : chooseId vault.records r [] = some (.ok r.id) := by
      rw [chooseId_own hid, if_neg hnew]
    have hw : ¬(vault.arena.readonly = true ∧ env.readwrite = false) := by
      rintro ⟨hro, hrw⟩
      rw [hprot hro] at hrw
      cases hrw
    obtain ⟨hadd, hfull⟩ := pvModelAddRecord_settled (env.clock vault.records.length) hpos
      hrecord (fun h => by rw [hid] at h; exact absurd h.2 (by decide)) hw hchoose
    rw [storedRecord_own hrev] at hadd
    have hread := readsBack_readRecord hr
      ((rs.flatMap fun r => tokensBytes (recordTokens r)) ++ rest)
    rw [List.length_cons, decodeRecords, decodeRecord, List.flatMap_cons, List.append_assoc, hread,
      List.map_cons, vaultRequests, placeAll_append]
    dsimp only
    by_cases hone : placeAll vault.arena.used (addRequests vault.records.length vault.recordCapacity
        r.lengths) ≤ vault.arena.capacity
    · obtain ⟨mid, hmid, hadded⟩ := hadd hone
      rw [hmid]
      dsimp only
      rw [if_pos (by decide)]
      have hids' : (mid.records.map Record.id ++ rs.map Record.id).Nodup := by
        rw [hadded.ids_eq, List.append_assoc, List.singleton_append]
        exact hids
      obtain ⟨hok, hlimit⟩ := ih hrs mid
        (by rw [hadded.recordCapacity_eq]; exact grownCapacity_pos hpos)
        (fun hro => by rw [hadded.writable] at hro; cases hro) hids'
      rw [hadded.used_eq, hadded.length_eq, hadded.recordCapacity_eq, hadded.extends_eq.capacity_eq]
        at hok hlimit
      refine ⟨fun hfit => ?_, hlimit⟩
      obtain ⟨vault', hrun, hfilled⟩ := hok hfit
      exact ⟨vault', hrun, hadded.filled hfilled⟩
    · obtain ⟨vault', hlimit⟩ := hfull (Nat.lt_of_not_le hone)
      rw [hlimit]
      refine ⟨fun hfit => absurd (le_trans (le_placeAll _ _) hfit) hone, fun _ => ?_⟩
      exact ⟨_, vault', rfl⟩

/-- **Only records the encoder would write are decoded**: valid ones, each from its own tokens,
with ids that neither repeat each other nor one of the vault's. -/
theorem decodeRecords_ok (env : DecodeEnv) (n : Nat) :
    ∀ {vault vault' : Vault Hash} {inp rest : Bytes},
      decodeRecords env n inp vault = some (.ok, rest, vault') → 0 < vault.recordCapacity →
      (vault.records.map Record.id).Nodup →
      ∃ rs, rs.length = n ∧ inp = (rs.flatMap fun r => tokensBytes (recordTokens r)) ++ rest ∧
        (∀ r ∈ rs, pvModelValidateRecord r = .ok) ∧
        (vault.records.map Record.id ++ rs.map Record.id).Nodup ∧ Filled vault rs vault' := by
  induction n with
  | zero =>
    intro vault vault' inp rest h _ hids
    obtain ⟨-, rfl, rfl⟩ : PvStatus.ok = .ok ∧ inp = rest ∧ vault = vault' := by
      rw [decodeRecords] at h
      cases h
      exact ⟨rfl, rfl, rfl⟩
    refine ⟨[], rfl, rfl, fun r hr => absurd hr List.not_mem_nil, ?_, Filled.refl vault⟩
    rwa [List.map_nil, List.append_nil]
  | succ n ih =>
    intro vault vault' inp rest h hpos hids
    rw [decodeRecords, decodeRecord] at h
    rcases hread : readRecord.run inp with status | ⟨r, mid⟩
    · have hbad : (if status = .ok then PvStatus.errFormat else status) ≠ .ok := by
        split_ifs with hok
        · decide
        · exact hok
      rw [hread] at h
      dsimp only at h
      rw [if_neg hbad] at h
      exact absurd (congrArg Prod.fst (Option.some.inj h)) hbad
    · obtain ⟨rfl, hr⟩ := canonical_readRecord _ _ _ hread
      obtain ⟨-, hrev, hid⟩ := pvModelValidateRecord_ok.mp hr
      rw [hread] at h
      dsimp only at h
      rcases hadd : pvModelAddRecord vault r (env.clock vault.records.length) [] env.readwrite with
        _ | ⟨status, next⟩
      · rw [hadd] at h
        cases h
      · rw [hadd] at h
        dsimp only at h
        obtain ⟨rfl, h⟩ : status = .ok ∧ decodeRecords env n mid next = some (.ok, rest, vault') := by
          rcases eq_or_ne status .ok with rfl | hne
          · exact ⟨rfl, by rwa [if_pos (by decide)] at h⟩
          · have hbad : (if status = .errExists then PvStatus.errFormat else status) ≠ .ok := by
              split_ifs
              · decide
              · exact hne
            rw [if_neg hbad] at h
            exact absurd (congrArg Prod.fst (Option.some.inj h)) hbad
        obtain ⟨-, -, id, hchoose, hadded⟩ := pvModelAddRecord_ok hpos hadd
        -- the id is the record's own, and new
        rw [chooseId_own hid] at hchoose
        split_ifs at hchoose with hmem
        · cases hchoose
        obtain rfl := Except.ok.inj (Option.some.inj hchoose)
        rw [storedRecord_own hrev] at hadded
        have hids' : (next.records.map Record.id).Nodup := by
          rw [hadded.ids_eq]
          exact List.nodup_append.mpr ⟨hids, List.pairwise_singleton _ _, fun a ha b hb hab =>
            hmem (by rw [List.mem_singleton.mp hb] at hab; rwa [hab] at ha)⟩
        obtain ⟨rs, rfl, rfl, hrs, hnodup, hfilled⟩ :=
          ih h (by rw [hadded.recordCapacity_eq]; exact grownCapacity_pos hpos) hids'
        refine ⟨r :: rs, rfl, ?_, List.forall_mem_cons.mpr ⟨hr, hrs⟩, ?_, hadded.filled hfilled⟩
        · rw [List.flatMap_cons, List.append_assoc]
        · rwa [hadded.ids_eq, List.append_assoc, List.singleton_append] at hnodup

/-! ## libcbor's pass -/

/-- The items of the payload format: integers, map and array heads, byte and text strings. -/
def CborToken.Plain : CborToken → Prop
  | .head m _ => m = 0 ∨ m = 4 ∨ m = 5
  | .blob m data => (m = 2 ∨ m = 3) ∧ data.length < UInt64.size

/-- What libcbor documents of `cbor_stream_decode`: a complete definite-length item at the
front is reported with its length. -/
def StreamDecodes (streamDecode : Bytes → Option Nat) : Prop :=
  ∀ (t : CborToken) (rest : Bytes), t.Plain → streamDecode (t.bytes ++ rest) = some t.bytes.length

theorem length_headBytes_pos (m : UInt8) (v : UInt64) : 0 < (headBytes m v).length := by
  rw [headBytes]
  split_ifs <;> exact Nat.succ_pos _

theorem CborToken.length_bytes_pos (t : CborToken) : 0 < t.bytes.length := by
  rcases t with ⟨m, v⟩ | ⟨m, data⟩
  · exact length_headBytes_pos m v
  · rw [bytes, List.length_append]
    exact Nat.add_pos_left (length_headBytes_pos _ _) _

/-- The pass accepts any concatenation of plain items. -/
theorem wellFormedLoop_tokens {streamDecode : Bytes → Option Nat} (h : StreamDecodes streamDecode)
    (ts : List CborToken) (hplain : ∀ t ∈ ts, t.Plain) :
    ∀ fuel, (tokensBytes ts).length ≤ fuel → wellFormedLoop streamDecode fuel (tokensBytes ts) = true := by
  induction ts with
  | nil =>
    intro fuel _
    rcases fuel with _ | fuel
    · rfl
    · rfl
  | cons t ts ih =>
    intro fuel hfuel
    obtain ⟨ht, hts⟩ := List.forall_mem_cons.mp hplain
    have hpos := t.length_bytes_pos
    rw [tokensBytes_cons, List.length_append] at hfuel
    rcases fuel with _ | fuel
    · omega
    · have hne : ¬(t.bytes ++ tokensBytes ts).isEmpty = true := by
        rw [List.isEmpty_iff_length_eq_zero, List.length_append]
        omega
      have hread : ¬(t.bytes.length = 0 ∨ t.bytes.length > (t.bytes ++ tokensBytes ts).length) := by
        rw [List.length_append]
        omega
      rw [tokensBytes_cons, wellFormedLoop, if_neg hne, h t _ ht]
      dsimp only
      rw [if_neg hread, List.drop_left]
      exact ih hts fuel (by omega)

theorem length_bytes_le_of_mem {t : CborToken} {ts : List CborToken} (h : t ∈ ts) :
    t.bytes.length ≤ (tokensBytes ts).length := by
  obtain ⟨pre, post, rfl⟩ := List.append_of_mem h
  rw [tokensBytes_append, tokensBytes_cons, List.length_append, List.length_append]
  omega

/-- A token with one of the majors the encoder uses. -/
def CborToken.majorOk : CborToken → Bool
  | .head m _ => m == 0 || m == 4 || m == 5
  | .blob m _ => m == 2 || m == 3

theorem majorOk_fieldTokens (field : CustomField Bytes) :
    ∀ t ∈ fieldTokens field, t.majorOk = true := by
  simp [fieldTokens, CborToken.majorOk]

theorem majorOk_recordTokens (record : Record Bytes) :
    ∀ t ∈ recordTokens record, t.majorOk = true := by
  have hfields : ∀ t ∈ record.fields.flatMap fieldTokens, t.majorOk = true := by
    intro t ht
    obtain ⟨field, -, hfield⟩ := List.mem_flatMap.mp ht
    exact majorOk_fieldTokens field t hfield
  have htexts : ∀ (texts : List Bytes), ∀ t ∈ textTokens texts, t.majorOk = true := by
    intro texts t ht
    obtain ⟨s, -, hs⟩ := List.mem_flatMap.mp ht
    rw [List.mem_singleton.mp hs]
    rfl
  simp only [recordTokens, List.flatten_cons, List.flatten_nil, List.append_nil,
    List.forall_mem_append, List.forall_mem_singleton, CborToken.majorOk]
  exact ⟨rfl, rfl, rfl, rfl, rfl, rfl, rfl, rfl, rfl, rfl, rfl, rfl, rfl, rfl, rfl, rfl, rfl, rfl, rfl,
    htexts _, rfl, rfl, rfl, rfl, htexts _, rfl, rfl, hfields⟩

/-- Every token of a payload that fits 2 MiB is plain. -/
theorem plain_payloadTokens (hlen : (payloadBytes payload).length ≤ pvMaxPlaintext) :
    ∀ t ∈ payloadTokens payload, t.Plain := by
  have hmajor : ∀ t ∈ payloadTokens payload, t.majorOk = true := by
    have hrecords : ∀ t ∈ payload.records.flatMap recordTokens, t.majorOk = true := by
      intro t ht
      obtain ⟨record, -, hrecord⟩ := List.mem_flatMap.mp ht
      exact majorOk_recordTokens record t hrecord
    simp only [payloadTokens, List.flatten_cons, List.flatten_nil, List.append_nil,
      List.forall_mem_append, List.forall_mem_singleton]
    exact ⟨rfl, rfl, rfl, rfl, rfl, rfl, rfl, rfl, rfl, rfl, rfl, rfl, rfl, hrecords⟩
  intro t ht
  have hmax := pvMaxPlaintext_eq
  have hle : t.bytes.length ≤ pvMaxPlaintext := le_trans (length_bytes_le_of_mem ht) hlen
  have hok := hmajor t ht
  rcases t with ⟨m, v⟩ | ⟨m, data⟩
  · simp only [CborToken.majorOk, Bool.or_eq_true, beq_iff_eq] at hok
    rw [CborToken.Plain]
    tauto
  · simp only [CborToken.majorOk, Bool.or_eq_true, beq_iff_eq] at hok
    rw [CborToken.bytes, List.length_append] at hle
    refine ⟨hok, ?_⟩
    show data.length < 18446744073709551616
    omega

/-! ## The whole payload -/

/-- A vault without records, as `pv_model_init` leaves it. -/
structure Vault.Empty (vault : Vault Hash) : Prop where
  records_eq : vault.records = []
  capacity_pos : 0 < vault.recordCapacity

/-- `vault'` is the empty `vault` with `payload` decoded into it. -/
structure Decoded (vault : Vault Hash) (payload : Payload) (vault' : Vault Hash) : Prop where
  filled : ∃ filled, Filled { vault with
      generation := payload.generation
      deviceId := payload.deviceId } payload.records filled ∧
    vault' = { filled with
      arena := { filled.arena with readonly := true }
      createdMs := payload.createdMs
      updatedMs := payload.updatedMs
      dirty := false }

theorem Decoded.payload_eq (h : Decoded vault payload vault') (hempty : vault.Empty) :
    vault'.payload = payload := by
  obtain ⟨filled, hfilled, rfl⟩ := h.filled
  have hholds := hfilled.holds [] (by rw [Vault.Holds, hempty.records_eq]; exact List.Forall₂.nil)
  have hview : filled.view = payload.records := hholds.view_eq
  have hrest := hfilled.rest_eq
  have hgeneration : filled.generation = payload.generation := by rw [hrest]
  have hdevice : filled.deviceId = payload.deviceId := by rw [hrest]
  show Payload.mk filled.generation filled.deviceId payload.createdMs payload.updatedMs filled.view = _
  rw [hgeneration, hdevice, hview]

/-- The payload says nothing about the file. -/
theorem Decoded.named (h : Decoded vault payload vault') :
    vault'.path = vault.path ∧ vault'.vaultId = vault.vaultId := by
  obtain ⟨filled, hfilled, rfl⟩ := h.filled
  constructor
  · show filled.path = vault.path
    rw [hfilled.rest_eq]
  · show filled.vaultId = vault.vaultId
    rw [hfilled.rest_eq]

theorem Decoded.dirty_eq (h : Decoded vault payload vault') : vault'.dirty = false := by
  obtain ⟨filled, -, rfl⟩ := h.filled
  rfl

/-- What holds of every payload the decoder accepts. -/
structure Payload.Accepted (payload : Payload) : Prop extends payload.Valid where
  ids_nodup : (payload.records.map Record.id).Nodup
  count_le : payload.records.length ≤ pvMaxPlaintext / 64
  length_le : (payloadBytes payload).length ≤ pvMaxPlaintext

theorem payloadBytes_ne_nil (payload : Payload) : (payloadBytes payload).length ≠ 0 := by
  have hmem : CborToken.head 5 (UInt64.ofNat 6) ∈ payloadTokens payload := by simp [payloadTokens]
  have hle := length_bytes_le_of_mem hmem
  have hpos := (CborToken.head 5 (UInt64.ofNat 6)).length_bytes_pos
  rw [payloadBytes]
  omega

/-- **What the encoder writes is decoded**, into any empty vault where it fits; where it does
not, the decoder fails with `PV_ERR_LIMIT`. -/
theorem pvCborDecode_payloadBytes {env : DecodeEnv} (hstream : StreamDecodes env.streamDecode)
    (hok : payload.Accepted) (hempty : vault.Empty)
    (hprot : vault.arena.readonly = true → env.readwrite = true) (hro : env.readonly = true) :
    (placeAll vault.arena.used (vaultRequests 0 vault.recordCapacity
        (payload.records.map Record.lengths)) ≤ vault.arena.capacity →
      ∃ vault', pvCborDecode env (payloadBytes payload) vault = some (.ok, vault') ∧
        Decoded vault payload vault') ∧
    (vault.arena.capacity < placeAll vault.arena.used (vaultRequests 0 vault.recordCapacity
        (payload.records.map Record.lengths)) →
      ∃ vault', pvCborDecode env (payloadBytes payload) vault = some (.errLimit, vault')) := by
  have husage : ¬((payloadBytes payload).length = 0 ∨ (payloadBytes payload).length > pvMaxPlaintext ∨
      vault.records.length ≠ 0) := by
    have hlen := hok.length_le
    have hne := payloadBytes_ne_nil payload
    rw [hempty.records_eq, List.length_nil]
    omega
  have hpass : ¬libcborWellFormed env.streamDecode (payloadBytes payload) = false := by
    rw [Bool.not_eq_false]
    exact wellFormedLoop_tokens hstream _ (plain_payloadTokens hok.length_le) _ (le_refl _)
  have hdevice : ¬bytesAllZero payload.deviceId.bytes = true := by
    rw [hok.deviceId_ne]
    decide
  -- the records are decoded into the vault that already has its generation and device id
  have hrecords := decodeRecords_flatMap env [] payload.records hok.records_valid
    { vault with generation := payload.generation, deviceId := payload.deviceId }
    hempty.capacity_pos hprot (by rw [hempty.records_eq]; exact hok.ids_nodup)
  have hnone : vault.records.length = 0 := by rw [hempty.records_eq, List.length_nil]
  simp only [hnone, List.append_nil] at hrecords
  have hhead := readsBack_readGeneration payload.generation
    (tokensBytes (deviceIdTokens payload.deviceId.bytes) ++
      (tokensBytes (timesTokens payload.createdMs payload.updatedMs payload.records.length) ++
        payload.records.flatMap fun r => tokensBytes (recordTokens r)))
  rw [← payloadBytes_eq] at hhead
  rw [pvCborDecode, if_neg husage, if_neg hpass, hhead]
  dsimp only
  rw [readsBack_readDeviceId hok.deviceId_ne _]
  dsimp only
  rw [Block.ofBytes_bytes, if_neg hdevice,
    readsBack_readTimes hok.created_nonneg hok.updated_nonneg hok.count_le _]
  dsimp only
  rw [decodeBody]
  refine ⟨fun hfit => ?_, fun hover => ?_⟩
  · obtain ⟨filled, hrun, hfilled⟩ := hrecords.1 hfit
    rw [hrun]
    dsimp only
    rw [if_neg (fun h => h rfl), if_neg (fun h => h rfl), pvArenaSetReadonly, if_pos hro]
    exact ⟨_, rfl, filled, hfilled, rfl⟩
  · obtain ⟨rest, filled, hrun⟩ := hrecords.2 hover
    rw [hrun]
    exact ⟨filled, rfl⟩

/-- **Only what the encoder writes is decoded.** -/
theorem pvCborDecode_ok {env : DecodeEnv} {input : Bytes} (hpos : 0 < vault.recordCapacity)
    (h : pvCborDecode env input vault = some (.ok, vault')) :
    vault.Empty ∧ ∃ payload : Payload, input = payloadBytes payload ∧ payload.Accepted ∧
      Decoded vault payload vault' := by
  rw [pvCborDecode] at h
  split_ifs at h with husage hpass
  · cases h
  · cases h
  have hempty : vault.Empty := ⟨List.length_eq_zero_iff.mp (by omega), hpos⟩
  refine ⟨hempty, ?_⟩
  rcases hgen : readGeneration.run input with status | ⟨generation, rest₁⟩
  · rw [hgen] at h
    exact absurd (congrArg Prod.fst (Option.some.inj h)) (fails_readGeneration _ _ hgen).ne_ok
  have hinput := readGeneration_ok hgen
  rw [hgen] at h
  dsimp only at h
  rcases hdev : readDeviceId.run rest₁ with status | ⟨deviceId, rest₂⟩
  · rw [hdev] at h
    exact absurd (congrArg Prod.fst (Option.some.inj h)) (fails_readDeviceId _ _ hdev).ne_ok
  obtain ⟨rfl, hdevLen, hdevNe⟩ := readDeviceId_ok hdev
  have hdevBytes := Block.bytes_ofBytes hdevLen
  rw [hdev] at h
  dsimp only at h
  rw [hdevBytes, if_neg (by rw [hdevNe]; decide)] at h
  rcases htimes : readTimes.run rest₂ with status | ⟨⟨created, updated, recordCount⟩, rest₃⟩
  · rw [htimes] at h
    exact absurd (congrArg Prod.fst (Option.some.inj h)) (fails_readTimes _ _ htimes).ne_ok
  obtain ⟨rfl, hcreated, hupdated, hcount⟩ := readTimes_ok htimes
  rw [htimes] at h
  dsimp only at h
  rw [decodeBody] at h
  rcases hrecords : decodeRecords env recordCount rest₃ { vault with
      generation
      deviceId := Block.ofBytes pvDeviceIdBytes deviceId } with _ | ⟨status, rest₄, filled⟩
  · rw [hrecords] at h
    cases h
  rw [hrecords] at h
  dsimp only at h
  split_ifs at h with hstatus htrail
  · exact absurd (congrArg Prod.fst (Option.some.inj h)) hstatus
  · cases h
  obtain rfl := not_not.mp hstatus
  obtain rfl := not_not.mp htrail
  obtain ⟨rs, rfl, rfl, hvalid, hids, hfilled⟩ := decodeRecords_ok env recordCount
    hrecords hpos (by rw [hempty.records_eq]; exact List.nodup_nil)
  rw [hempty.records_eq] at hids
  have hbytes : input = payloadBytes ⟨generation, Block.ofBytes _ deviceId, created, updated, rs⟩ := by
    rw [hinput, payloadBytes_eq, hdevBytes, List.append_nil]
  refine ⟨_, hbytes, ⟨⟨hcreated, hupdated, ?_, hvalid⟩, hids, hcount, ?_⟩, ?_⟩
  · show bytesAllZero (Block.ofBytes _ deviceId).bytes = false
    rw [hdevBytes]
    exact hdevNe
  · rw [← hbytes]
    omega
  · rcases hro : env.readonly with _ | _
    · rw [hro] at h
      cases h
    · rw [hro] at h
      exact ⟨filled, hfilled, (congrArg Prod.snd (Option.some.inj h)).symm⟩

/-! ## Decoding always returns -/

/-- A record that brings its revision brings its id, so none is drawn. -/
theorem pvModelAddRecord_isSome (vault : Vault Hash) (now : Int64) (protect : Bool)
    (hrev : source.revision ≠ 0) :
    (pvModelAddRecord vault source now [] protect).isSome = true := by
  rw [pvModelAddRecord]
  split
  · rfl
  · split
    · rfl
    · next hid =>
      have hne : bytesAllZero source.id.bytes = false := by
        cases h : bytesAllZero source.id.bytes with
        | false => rfl
        | true => exact absurd ⟨hrev, h⟩ hid
      split
      · rfl
      · dsimp only
        split
        · rfl
        · rw [chooseId_own hne]
          split
          · next hchoose => split at hchoose <;> cases hchoose
          · rfl
          · split <;> rfl

theorem decodeRecord_isSome (env : DecodeEnv) (inp : Bytes) (vault : Vault Hash) :
    (decodeRecord env inp vault).isSome = true := by
  rw [decodeRecord]
  split
  · rfl
  · next temporary rest hread =>
    have hrev : temporary.revision ≠ 0 :=
      (pvModelValidateRecord_ok.mp (canonical_readRecord inp temporary rest hread).2).2.1
    have hsome := pvModelAddRecord_isSome vault (env.clock vault.records.length) env.readwrite hrev
    split
    · next hnone => rw [hnone] at hsome; cases hsome
    · rfl

theorem decodeRecords_isSome (env : DecodeEnv) (n : Nat) :
    ∀ (inp : Bytes) (vault : Vault Hash), (decodeRecords env n inp vault).isSome = true := by
  induction n with
  | zero => exact fun _ _ => rfl
  | succ n ih =>
    intro inp vault
    have hsome := decodeRecord_isSome env inp vault
    rw [decodeRecords]
    split
    · next hnone => rw [hnone] at hsome; cases hsome
    · split
      · exact ih _ _
      · rfl

/-- `pv_cbor_decode` returns on every input. -/
theorem pvCborDecode_isSome (env : DecodeEnv) (input : Bytes) (vault : Vault Hash) :
    (pvCborDecode env input vault).isSome = true := by
  have hbody : ∀ created updated count rest (vault : Vault Hash),
      (decodeBody env created updated count rest vault).isSome = true := by
    intro created updated count rest vault
    have hsome := decodeRecords_isSome env count rest vault
    rw [decodeBody]
    split
    · next hnone => rw [hnone] at hsome; cases hsome
    · split
      · rfl
      · split <;> rfl
  rw [pvCborDecode]
  split
  · rfl
  · split
    · rfl
    · split
      · rfl
      · dsimp only
        split
        · rfl
        · split
          · rfl
          · split
            · rfl
            · exact hbody _ _ _ _ _

end Decoder

end PVault
