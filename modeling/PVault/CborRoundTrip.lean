import PVault.CborDecode

/-!
# The payload codec as a whole

* `pvCborDecode_pvCborEncode`: decoding undoes encoding.
* `pvCborEncode_pvCborDecode`: the accepted byte strings are exactly the ones the encoder
  writes, so the accepted language has one spelling for every vault.

Both rest on the two laws of `PVault.CborDecode`. That no accepted string extends another
one comes from `readPayload`, the decoder without its vault: it reads back a payload
whatever follows.
-/

namespace PVault

open Binary Bump

/-! ## Payloads are prefix-free -/

/-- The decoder without its vault. -/
def readPayload : Reader PvStatus Payload := do
  let generation ← readGeneration
  let deviceId ← readDeviceId
  let (createdMs, updatedMs, recordCount) ← readTimes
  let records ← Reader.many readRecord recordCount
  pure ⟨generation, Block.ofBytes _ deviceId, createdMs, updatedMs, records⟩

theorem readsBack_readPayload {payload : Payload} (h : payload.Accepted) :
    Reader.ReadsBack readPayload (payloadBytes payload) payload := by
  have hrecords : Reader.ReadsBack (Reader.many readRecord payload.records.length)
      (payload.records.flatMap fun r => tokensBytes (recordTokens r)) payload.records :=
    Reader.readsBack_many payload.records fun r hr => readsBack_readRecord (h.records_valid r hr)
  rw [payloadBytes_eq]
  refine (readsBack_readGeneration _).bind ((readsBack_readDeviceId h.deviceId_ne).bind ?_)
  refine (readsBack_readTimes h.created_nonneg h.updated_nonneg h.count_le).bind ?_
  rw [← List.append_nil (payload.records.flatMap _)]
  refine hrecords.bind ?_
  rw [Block.ofBytes_bytes]
  exact Reader.readsBack_pure _

/-- No accepted payload is a proper prefix of another, and no two have the same bytes. -/
theorem payloadBytes_prefix_free {p q : Payload} (hp : p.Accepted) (hq : q.Accepted) {tail : Bytes}
    (h : payloadBytes p ++ tail = payloadBytes q) : p = q ∧ tail = [] := by
  have hread := readsBack_readPayload hq []
  rw [List.append_nil, ← h, readsBack_readPayload hp tail] at hread
  obtain ⟨hpq, htail⟩ := Prod.mk.inj (Except.ok.inj hread)
  exact ⟨hpq, htail⟩

/-! ## An instance

A `cbor_stream_decode` for the items of the format, to run the two theorems on. -/

/-- The length of the item at the front: its head, and for strings the content. -/
def plainStreamDecode (inp : Bytes) : Option Nat :=
  match inp with
  | [] => none
  | initial :: _ =>
    match (readerValue (initial >>> 5)).run inp with
    | .error _ => none
    | .ok (value, rest) =>
      if initial >>> 5 = 2 ∨ initial >>> 5 = 3 then
        if value.toNat ≤ rest.length then some (inp.length - rest.length + value.toNat) else none
      else some (inp.length - rest.length)

theorem headBytes_initial {m : UInt8} (hm : m.toNat < 8) (v : UInt64) :
    ∃ initial tail, headBytes m v = initial :: tail ∧ initial >>> 5 = m := by
  by_cases hsmall : v.toNat < 24
  · have hbyte : (UInt8.ofNat v.toNat).toNat = v.toNat := UInt8.toNat_ofNat_of_lt' (by
      show v.toNat < 256
      omega)
    refine ⟨_, [], ?_, initial_major hm (i := UInt8.ofNat v.toNat) (by omega)⟩
    rw [headBytes, if_pos (UInt64.lt_iff_toNat_lt.mpr hsmall)]
  · obtain ⟨info, w, hw, hshort, hlt, hinfo, -⟩ := exists_width v hsmall
    exact ⟨_, _, headBytes_of_width hw hshort hlt, initial_major hm hinfo⟩

theorem plainStreamDecode_head {m : UInt8} (hm : m.toNat < 8) (v : UInt64) (rest : Bytes) :
    plainStreamDecode (headBytes m v ++ rest) =
      if m = 2 ∨ m = 3 then
        if v.toNat ≤ rest.length then some ((headBytes m v).length + v.toNat) else none
      else some (headBytes m v).length := by
  have hread := readsBack_readerValue hm v rest
  obtain ⟨initial, tail, hhead, rfl⟩ := headBytes_initial hm v
  rw [hhead, List.cons_append] at hread ⊢
  rw [plainStreamDecode, hread]
  dsimp only
  rw [List.length_cons, List.length_cons, List.length_append,
    show tail.length + rest.length + 1 - rest.length = tail.length + 1 by omega]

theorem streamDecodes_plain : StreamDecodes plainStreamDecode := by
  intro t rest ht
  rcases t with ⟨m, v⟩ | ⟨m, data⟩
  · have hm : m.toNat < 8 ∧ ¬(m = 2 ∨ m = 3) := by
      rcases ht with rfl | rfl | rfl
      · decide
      · decide
      · decide
    show plainStreamDecode (headBytes m v ++ rest) = _
    rw [plainStreamDecode_head hm.1, if_neg hm.2]
    rfl
  · obtain ⟨hm, hlen⟩ := ht
    have hval : (UInt64.ofNat data.length).toNat = data.length := UInt64.toNat_ofNat_of_lt' hlen
    have hm8 : m.toNat < 8 := by
      rcases hm with rfl | rfl
      · decide
      · decide
    show plainStreamDecode ((headBytes m _ ++ data) ++ rest) = _
    rw [List.append_assoc, plainStreamDecode_head hm8, if_pos hm, hval, List.length_append,
      if_pos (Nat.le_add_right _ _), CborToken.bytes, List.length_append]

/-- A run in which every request is granted. -/
def sampleEnv : DecodeEnv := ⟨plainStreamDecode, fun _ => 1, true, true⟩

/-- An empty vault with room for sixteen small records. -/
def sampleEmpty : Vault Unit where
  arena := ⟨64, Block.zero _, 0, false, by decide, by decide⟩
  vaultId := Block.zero _
  deviceId := Block.zero _
  generation := 0
  createdMs := 0
  updatedMs := 0
  records := []
  recordCapacity := 16
  vmk := Block.zero _
  sourceHash := ()
  dirty := false
  path := []

/-- A vault with one record, titled `A`, with one tag `b`. -/
def sampleVault : Vault Unit :=
  { sampleEmpty with
    arena := ⟨64, Block.ofBytes _ [65, 0, 98, 0], 32, true, by decide, by decide⟩
    deviceId := Block.ofBytes _ [7]
    generation := 3
    createdMs := 5
    updatedMs := 6
    records := [⟨Block.ofBytes _ [9], 1, 5, 6, 2, ⟨0, 1⟩, Slice.null, Slice.null, Slice.null, [],
      [⟨2, 1⟩], []⟩] }

/-- The bytes of the sample vault. -/
def sampleBytes : Bytes := payloadBytes sampleVault.payload

theorem pvCborEncode_sampleVault : pvCborEncode sampleVault true = (.ok, sampleBytes) := by
  decide +kernel

/-! ## Decoding undoes encoding -/

section RoundTrip

variable {Hash : Type}

theorem pvCborEncode_accepted {vault : Vault Hash} {mem : Bool} {out : Bytes}
    (h : pvCborEncode vault mem = (.ok, out)) (hids : (vault.view.map Record.id).Nodup)
    (hcount : vault.records.length ≤ pvMaxPlaintext / 64) :
    vault.payload.Accepted ∧ out = payloadBytes vault.payload := by
  obtain ⟨hvalid, rfl, hlen⟩ := pvCborEncode_ok h
  refine ⟨⟨hvalid, hids, ?_, hlen⟩, rfl⟩
  show (vault.records.map _).length ≤ _
  rwa [List.length_map]

/-- **Decoding undoes encoding.** Whenever a vault with distinct ids and at most 32768 records
is encoded, decoding the bytes into an empty vault with enough space gives the same vault
contents back, not dirty. -/
theorem pvCborDecode_pvCborEncode {env : DecodeEnv} (hstream : StreamDecodes env.streamDecode)
    (hro : env.readonly = true) {vault : Vault Hash} {mem : Bool} {out : Bytes}
    (hids : (vault.view.map Record.id).Nodup) (hcount : vault.records.length ≤ pvMaxPlaintext / 64)
    (henc : pvCborEncode vault mem = (.ok, out)) {empty : Vault Hash} (hempty : empty.Empty)
    (hprot : empty.arena.readonly = true → env.readwrite = true)
    (hspace : placeAll empty.arena.used (vaultRequests 0 empty.recordCapacity
      (vault.view.map Record.lengths)) ≤ empty.arena.capacity) :
    ∃ vault', pvCborDecode env out empty = some (.ok, vault') ∧
      vault'.generation = vault.generation ∧ vault'.deviceId = vault.deviceId ∧
      vault'.createdMs = vault.createdMs ∧ vault'.updatedMs = vault.updatedMs ∧
      vault'.view = vault.view ∧ vault'.dirty = false := by
  obtain ⟨haccepted, rfl⟩ := pvCborEncode_accepted henc hids hcount
  obtain ⟨vault', hdec, hdecoded⟩ :=
    (pvCborDecode_payloadBytes hstream haccepted hempty hprot hro).1 hspace
  have hpayload := hdecoded.payload_eq hempty
  exact ⟨vault', hdec, congrArg Payload.generation hpayload, congrArg Payload.deviceId hpayload,
    congrArg Payload.createdMs hpayload, congrArg Payload.updatedMs hpayload,
    congrArg Payload.records hpayload, hdecoded.dirty_eq⟩

theorem pvCborDecode_pvCborEncode_sample :
    ∃ vault', pvCborDecode sampleEnv sampleBytes sampleEmpty = some (.ok, vault') ∧
      vault'.generation = sampleVault.generation ∧ vault'.deviceId = sampleVault.deviceId ∧
      vault'.createdMs = sampleVault.createdMs ∧ vault'.updatedMs = sampleVault.updatedMs ∧
      vault'.view = sampleVault.view ∧ vault'.dirty = false :=
  pvCborDecode_pvCborEncode streamDecodes_plain rfl (by decide) (by decide) pvCborEncode_sampleVault
    ⟨rfl, by decide⟩ (fun _ => rfl) (by decide)

/-! ## The accepted language is canonical -/

/-- **The accepted payload language is canonical.** A string `b` that is decoded into an
empty vault is what the encoder writes for the resulting vault: the shortest heads, every key
once and in order, only known flags, records with distinct non-zero ids. No other string is
decoded to the same contents, and nothing may follow an accepted string. -/
theorem pvCborEncode_pvCborDecode {env : DecodeEnv} {b : Bytes} {empty vault : Vault Hash}
    (hpos : 0 < empty.recordCapacity) (h : pvCborDecode env b empty = some (.ok, vault)) :
    pvCborEncode vault true = (.ok, b) ∧
    b = tokensBytes (payloadTokens vault.payload) ∧
    (∀ r ∈ vault.view, pvModelValidateRecord r = .ok) ∧ (vault.view.map Record.id).Nodup ∧
    (∀ (env' : DecodeEnv) (b' : Bytes) (empty' vault' : Vault Hash), 0 < empty'.recordCapacity →
      pvCborDecode env' b' empty' = some (.ok, vault') → vault'.payload = vault.payload → b' = b) ∧
    (∀ (env' : DecodeEnv) (tail : Bytes) (empty' vault' : Vault Hash), 0 < empty'.recordCapacity →
      tail ≠ [] → pvCborDecode env' (b ++ tail) empty' ≠ some (.ok, vault')) := by
  obtain ⟨hempty, payload, rfl, haccepted, hdecoded⟩ := pvCborDecode_ok hpos h
  have hpayload := hdecoded.payload_eq hempty
  refine ⟨?_, by rw [hpayload]; rfl, ?_, ?_, ?_, ?_⟩
  · rw [pvCborEncode_valid (by rw [hpayload]; exact haccepted.toValid), hpayload,
      if_pos haccepted.length_le]
  · rw [show vault.view = payload.records from congrArg Payload.records hpayload]
    exact haccepted.records_valid
  · rw [show vault.view = payload.records from congrArg Payload.records hpayload]
    exact haccepted.ids_nodup
  · intro env' b' empty' vault' hpos' h' heq
    obtain ⟨hempty', payload', rfl, -, hdecoded'⟩ := pvCborDecode_ok hpos' h'
    rw [hdecoded'.payload_eq hempty', hpayload] at heq
    rw [heq]
  · intro env' tail empty' vault' hpos' htail h'
    obtain ⟨-, payload', hbytes, haccepted', -⟩ := pvCborDecode_ok hpos' h'
    exact htail (payloadBytes_prefix_free haccepted haccepted' hbytes).2

theorem pvCborEncode_pvCborDecode_sample :
    ∃ vault, pvCborDecode sampleEnv sampleBytes sampleEmpty = some (.ok, vault) ∧
      pvCborEncode vault true = (.ok, sampleBytes) := by
  obtain ⟨haccepted, -⟩ := pvCborEncode_accepted pvCborEncode_sampleVault (by decide) (by decide)
  have hstream : StreamDecodes sampleEnv.streamDecode := streamDecodes_plain
  have hempty : sampleEmpty.Empty := ⟨rfl, by decide⟩
  obtain ⟨vault, hdec, -⟩ :=
    (pvCborDecode_payloadBytes hstream haccepted hempty (fun _ => rfl) rfl).1 (by decide)
  exact ⟨vault, hdec, (pvCborEncode_pvCborDecode (by decide) hdec).1⟩

end RoundTrip

end PVault
