import PVault.Drift

/-!
# Does a saved vault load again?

A vault whose edits were all free of alignment debt, or that has room left for the debt,
loads again (`reached_vault_reloads`). `exists_named_vault` builds vaults with one edit that
costs something; `full_vault_does_not_reload` is one that does not load again: the live arena
is full to the last byte, and the rebuilt one would need five more.
-/

namespace PVault

open Binary Bump

section Reached

variable {Hash : Type}
variable {debt : Nat} {vault fresh : Vault Hash} {payload : Payload} {path : Bytes}
  {record : Record Slice} {r : Record Bytes}
variable {mem : Bool} {out : Bytes} {env : DecodeEnv} {zeroHash : Hash}
  {arenaMem vmkMem : SecureAlloc} {s : Slice} {arena : Arena}

/-! ## Reachable vaults -/

/-- The vaults the program builds, with the debt of the edits on the way: initialised or
decoded, stamped with everything that is not a record, and changed by successful additions,
deletions and edits. -/
inductive Reached : Nat → Vault Hash → Prop
  | init {zeroHash : Hash} {path : Bytes} {arenaMem vmkMem : SecureAlloc} {vault : Vault Hash} :
    pvModelInit zeroHash path arenaMem vmkMem = .ok vault → Reached 0 vault
  | decode {zeroHash : Hash} {path : Bytes} {arenaMem vmkMem : SecureAlloc} {env : DecodeEnv}
    {input : Bytes} {fresh vault : Vault Hash} :
    pvModelInit zeroHash path arenaMem vmkMem = .ok fresh →
    pvCborDecode env input fresh = some (.ok, vault) → Reached 0 vault
  | stamp {debt : Nat} {vault vault' : Vault Hash} :
    Reached debt vault → vault'.records = vault.records →
    vault'.recordCapacity = vault.recordCapacity →
    vault'.arena = { vault.arena with readonly := vault'.arena.readonly } → Reached debt vault'
  | add {debt : Nat} {vault vault' : Vault Hash} {source : Record Bytes} {now : Int64}
    {draws : List (Block pvRecordIdBytes)} {protect : Bool} :
    Reached debt vault → pvModelAddRecord vault source now draws protect = some (.ok, vault') →
    Reached debt vault'
  | delete {debt index : Nat} {vault vault' : Vault Hash} {now : Int64} {protect : Bool} :
    Reached debt vault → pvModelDelete vault index now protect = (.ok, vault') →
    Reached debt vault'
  | edit {debt index : Nat} {vault vault' : Vault Hash} {edit : Edit} {now : Int64}
    {protect : Bool} {record : Record Slice} :
    Reached debt vault → vault.records[index]? = some record →
    commandEdit vault index edit now protect = (.ok, vault') →
    Reached (debt + edit.debt (record.map Slice.len)) vault'

/-- **Every reachable vault satisfies the invariant.** -/
theorem Reached.rebuildable (h : Reached debt vault) :
    Rebuildable debt vault := by
  induction h with
  | init hinit => exact (pvModelInit_ok hinit).rebuildable
  | decode hinit hdec =>
    have hfresh := pvModelInit_ok hinit
    obtain ⟨-, payload, -, haccepted, hdecoded⟩ := pvCborDecode_ok hfresh.capacity_pos hdec
    exact hdecoded.rebuildable hfresh haccepted.ids_nodup
  | stamp _ hrecords hcapacity harena ih =>
    refine ⟨?_, ?_, ?_, ?_, ?_, ?_⟩
    · rw [harena]
      exact ih.capacity_eq
    · rw [hrecords, harena]
      exact ih.bounds
    · rw [hrecords]
      exact ih.ids_nodup
    · rw [hcapacity, hrecords]
      exact ih.array_eq
    · rw [hcapacity, harena]
      exact ih.array_le
    · rw [Vault.lengths, hrecords, harena]
      exact ih.end_le
  | add _ hadd ih =>
    obtain ⟨-, -, id, hchoose, hadded⟩ := pvModelAddRecord_ok ih.capacity_pos hadd
    exact hadded.rebuildable ih (chooseId_new hchoose)
  | delete _ hdel ih => exact pvModelDelete_rebuildable ih hdel
  | edit _ hget hedit ih => exact commandEdit_rebuildable ih hget hedit

theorem Rebuildable.view_lengths (h : Rebuildable debt vault) :
    vault.view.map Record.lengths = vault.lengths := by
  rw [Vault.view, Vault.lengths, List.map_map]
  exact List.map_congr_left fun r hr => (h.bounds r hr).lengths_eq

/-- A vault in the invariant that encodes is one the decoder accepts. -/
theorem Rebuildable.accepted (h : Rebuildable debt vault)
    (henc : pvCborEncode vault mem = (.ok, out)) :
    vault.payload.Accepted ∧ out = payloadBytes vault.payload := by
  refine pvCborEncode_accepted henc ?_ ?_
  · rw [Vault.view, List.map_map]
    exact h.ids_nodup
  · -- the array takes 160 bytes a record
    have hcount := (le_filledCapacity vault.records.length).1
    have harray := h.array_le
    have hused := vault.arena.used_le
    have hcap : vault.arena.capacity = 2097152 := h.capacity_eq
    have hmax := pvMaxPlaintext_eq
    rw [← h.array_eq] at hcount
    rw [sizeofRecord] at harray
    omega

/-- A payload is decoded into a fresh vault exactly when its rebuilt layout fits. -/
theorem Fresh.reload (hfresh : Fresh fresh) (haccepted : payload.Accepted)
    (hstream : StreamDecodes env.streamDecode) (hro : env.readonly = true) :
    (rebuiltEnd (payload.records.map Record.lengths) ≤ pvArenaCapacity →
      ∃ vault', pvCborDecode env (payloadBytes payload) fresh = some (.ok, vault') ∧
        vault'.payload = payload) ∧
    (pvArenaCapacity < rebuiltEnd (payload.records.map Record.lengths) →
      ∃ vault', pvCborDecode env (payloadBytes payload) fresh = some (.errLimit, vault')) := by
  obtain ⟨hfits, hover⟩ := pvCborDecode_payloadBytes hstream haccepted hfresh.toEmpty
    (fun hreadonly => by rw [hfresh.writable] at hreadonly; cases hreadonly) hro
  have hplace : placeAll fresh.arena.used (vaultRequests 0 fresh.recordCapacity
      (payload.records.map Record.lengths)) = rebuiltEnd (payload.records.map Record.lengths) := by
    rw [hfresh.used_eq, hfresh.array_eq]
    rfl
  rw [hplace, hfresh.arena_eq] at hfits hover
  refine ⟨fun hfit => ?_, hover⟩
  obtain ⟨vault', hdec, hdecoded⟩ := hfits hfit
  exact ⟨vault', hdec, hdecoded.payload_eq hfresh.toEmpty⟩

/-- An encoded vault is decoded into a fresh one exactly when its rebuilt layout fits. -/
theorem Rebuildable.reload (hinv : Rebuildable debt vault) (hfresh : Fresh fresh)
    (henc : pvCborEncode vault mem = (.ok, out)) (hstream : StreamDecodes env.streamDecode)
    (hro : env.readonly = true) :
    (rebuiltEnd (vault.view.map Record.lengths) ≤ pvArenaCapacity →
      ∃ vault', pvCborDecode env out fresh = some (.ok, vault') ∧ vault'.payload = vault.payload) ∧
    (pvArenaCapacity < rebuiltEnd (vault.view.map Record.lengths) →
      ∃ vault', pvCborDecode env out fresh = some (.errLimit, vault')) := by
  obtain ⟨haccepted, rfl⟩ := hinv.accepted henc
  exact hfresh.reload haccepted hstream hro

/-! ## A vault with one edit -/

theorem pvModelInit_granted (zeroHash : Hash) (hpath : path.length < pathMax) :
    ∃ vault, pvModelInit zeroHash path .allocated .allocated = .ok vault := by
  rw [pvModelInit, if_neg (Nat.not_le.mpr hpath), pvArenaInit, dif_neg (by decide)]
  dsimp only
  rw [show (8 : Nat) = 2 ^ 3 from rfl, pvArenaAlloc_eq _ (by decide) (by omega) rfl,
    dif_pos (by decide)]
  exact ⟨_, rfl⟩

/-- A fresh vault with its device id and generation set. -/
def stampedVault (fresh : Vault Hash) : Vault Hash :=
  { fresh with deviceId := Block.ofBytes _ [7], generation := 1 }

theorem reached_stampedVault (h : pvModelInit zeroHash path arenaMem vmkMem = .ok fresh) :
    Reached 0 (stampedVault fresh) :=
  (Reached.init h).stamp rfl rfl rfl

theorem Arena.wipe_empty (arena : Arena) (h : s.len = 0) : arena.wipe s = arena := by
  rw [Arena.wipe, h, List.replicate_zero, Block.overwrite_nil]

theorem Arena.HoldsRecord.setText (h : arena.HoldsRecord record r) (slot : TextSlot)
    {data : Bytes} (hs : arena.Holds s data) :
    arena.HoldsRecord (slot.set record s) (slot.set r data) := by
  cases slot with
  | title => exact { h with title := hs }
  | username => exact { h with username := hs }
  | password => exact { h with password := hs }
  | notes => exact { h with notes := hs }

theorem Arena.HoldsRecord.getText (h : arena.HoldsRecord record r) (slot : TextSlot) :
    arena.Holds (slot.get record) (slot.get r) := by
  cases slot with
  | title => exact h.title
  | username => exact h.username
  | password => exact h.password
  | notes => exact h.notes

/-- Filling in a text that was empty: nothing is wiped, so everything else is kept. -/
theorem commandEdit_empty {index : Nat} {slot : TextSlot} {value : Bytes} (now : Int64)
    (hget : vault.records[index]? = some record) (hheld : vault.arena.HoldsRecord record r)
    (hempty : slot.get r = []) (hrev : record.revision ≠ UInt64.ofNat (UInt64.size - 1))
    (hlen : value.length ≤ slot.maximum)
    (hfit : vault.arena.used + textSize value.length ≤ vault.arena.capacity) :
    ∃ record' arena, commandEdit vault index (.text slot value) now true = (.ok, { vault with
        arena, records := vault.records.set index record', dirty := true, updatedMs := now }) ∧
      arena.used = vault.arena.used + textSize value.length ∧
      arena.HoldsRecord record' { slot.set r value with
        revision := (slot.set r value).revision + 1
        updatedMs := now } := by
  have hwipe : (slot.get record).len = 0 := by
    rw [(hheld.getText slot).len_eq, hempty]
    rfl
  rw [← placeAll_textRequests] at hfit ⊢
  obtain ⟨s, mid, hrun, hext, -, hused, hs⟩ :=
    (fills_pvArenaCopy hlen { vault.arena with readonly := false } rfl (Nat.zero_le _)).1 hfit
  have hext : vault.arena.Extends mid := ⟨hext.capacity_eq, hext.used_le, hext.outside⟩
  have hnew := (hheld.extends hext).setText slot hs
  have happly : (applyEdit record (.text slot value)).run.run { vault.arena with readonly := false } =
      (.ok (slot.set record s), mid) := by
    rw [applyEdit, run_bind, replaceSlice, run_bind, hrun]
    show (Except.ok (slot.set record s), mid.wipe (slot.get record)) = _
    rw [mid.wipe_empty hwipe]
  rw [commandEdit, hget]
  dsimp only
  rw [if_neg hrev, pvArenaSetReadwrite, if_pos rfl]
  dsimp only
  rw [happly]
  refine ⟨_, mid, rfl, hused, ?_⟩
  exact { hnew with
    revision := by rw [← hnew.revision]
    updatedMs := rfl }

/-- A record of revision one after the edit: its user name filled in. -/
def Record.named (r : Record Bytes) : Record Bytes :=
  { r with username := [98, 99], revision := 2, updatedMs := 1 }

/-- A record that leaves room for a user name is added to a fresh vault and gets one: the vault
encodes, and the edit has cost one unit. -/
theorem exists_named_vault (hinit : pvModelInit zeroHash path arenaMem vmkMem = .ok fresh)
    (hr : pvModelValidateRecord r = .ok) (hrev : r.revision = 1) (hname : r.username = [])
    (hfit : placeAll (pvInitialRecordCapacity * sizeofRecord)
      (addRequests 0 pvInitialRecordCapacity r.lengths) + 3 ≤ pvArenaCapacity)
    (hsize : ∀ payload : Payload, payload.records = [r.named] →
      (payloadBytes payload).length ≤ pvMaxPlaintext) :
    ∃ (vault : Vault Hash) (out : Bytes), Reached 1 vault ∧ vault.Holds [r.named] ∧
      vault.arena.used = placeAll (pvInitialRecordCapacity * sizeofRecord)
        (addRequests 0 pvInitialRecordCapacity r.lengths) + 3 ∧
      pvCborEncode vault true = (.ok, out) := by
  have hfresh := pvModelInit_ok hinit
  obtain ⟨hvalid, hrev', hid⟩ := pvModelValidateRecord_ok.mp hr
  have hnone : (stampedVault fresh).records = [] := hfresh.records_eq
  have hcap : (stampedVault fresh).arena.capacity = pvArenaCapacity := hfresh.arena_eq
  have hchoose : chooseId (stampedVault fresh).records r [] = some (.ok r.id) := by
    rw [chooseId_own hid, hnone, if_neg (by simp)]
  have hpos : 0 < (stampedVault fresh).recordCapacity := hfresh.capacity_pos
  have hwritable : ¬((stampedVault fresh).arena.readonly = true ∧ true = false) := by simp
  rw [← hfresh.used_eq, ← hfresh.array_eq] at hfit ⊢
  obtain ⟨added, hadd, hadded⟩ :=
    (pvModelAddRecord_settled 1 hpos hvalid (by rw [hid]; simp) hwritable hchoose).1
      (by rw [hnone, hcap]; exact le_trans (Nat.le_add_right _ 3) hfit)
  rw [storedRecord_own hrev'] at hadded
  obtain ⟨record, hrecords, hheld⟩ := hadded.records_eq
  have hone : added.records = [record] := by rw [hrecords, hnone, List.nil_append]
  have hget : added.records[0]? = some record := by rw [hone]; rfl
  have hused : added.arena.used = placeAll fresh.arena.used
      (addRequests 0 fresh.recordCapacity r.lengths) := by rw [hadded.used_eq, hnone]; rfl
  have hadded_cap : added.arena.capacity = pvArenaCapacity :=
    hadded.extends_eq.capacity_eq.trans hcap
  have hempty : TextSlot.username.get r = [] := hname
  have hfit' : added.arena.used + textSize ([98, 99] : Bytes).length ≤ added.arena.capacity := by
    rw [hused, hadded_cap]
    exact hfit
  obtain ⟨record', arena, hedit, hstop, hheld'⟩ := commandEdit_empty 1 hget hheld hempty
    (by rw [hheld.revision, hrev]; decide) (by decide) hfit'
  have hdebt : 0 + (Edit.text .username [98, 99]).debt (record.map Slice.len) = 1 := by
    show 0 + textDebt record.username.len 2 = 1
    rw [hheld.username.len_eq, hname]
    decide
  have hreached := ((reached_stampedVault hinit).add hadd).edit hget hedit
  rw [hdebt] at hreached
  have hnamed : arena.HoldsRecord record' r.named := by
    have hrev₂ : r.revision + 1 = 2 := by rw [hrev]; rfl
    rw [Record.named, ← hrev₂]
    exact hheld'
  have hholds : List.Forall₂ arena.HoldsRecord (added.records.set 0 record') [r.named] := by
    rw [hone]
    exact .cons hnamed .nil
  have hrecord : pvModelValidateRecord r.named = .ok := by
    refine pvModelValidateRecord_ok.mpr ⟨?_, show (2 : UInt64) ≠ 0 by decide, hid⟩
    exact { hvalid with
      username_le := show ([98, 99] : Bytes).length ≤ pvMaxUsername by decide
      username_text := show textSliceValid [98, 99] true = true by decide
      updated_nonneg := show (0 : Int64) ≤ 1 by decide }
  have hcreated : added.createdMs = 0 := by rw [hadded.rest_eq]; exact hfresh.created_eq
  have hdevice : added.deviceId = Block.ofBytes _ [7] := by rw [hadded.rest_eq]; rfl
  have hencodes : ∀ vault : Vault Hash, vault.view = [r.named] → vault.createdMs = 0 →
      vault.updatedMs = 1 → vault.deviceId = Block.ofBytes _ [7] →
      pvCborEncode vault true = (.ok, payloadBytes vault.payload) := by
    intro vault hview hcreated hupdated hdevice
    have hpayload : vault.payload.Valid := by
      rw [Vault.payload, hview, hcreated, hupdated, hdevice]
      exact ⟨show (0 : Int64) ≤ 0 by decide, show (0 : Int64) ≤ 1 by decide,
        show bytesAllZero (Block.ofBytes pvDeviceIdBytes [7]).bytes = false by decide,
        List.forall_mem_singleton.mpr hrecord⟩
    have henc := pvCborEncode_valid hpayload
    rwa [if_pos (hsize _ hview)] at henc
  exact ⟨_, _, hreached, hholds, by rw [hstop, hused]; rfl,
    hencodes _ (Vault.Holds.view_eq hholds) hcreated rfl hdevice⟩

/-! ## Does a saved vault load again? -/

/-- A bound for the bytes of a list of tokens: nine for each head, and the contents. -/
def tokensCost : List CborToken → Nat
  | [] => 0
  | .head _ _ :: ts => 9 + tokensCost ts
  | .blob _ data :: ts => 9 + data.length + tokensCost ts

theorem length_headBytes_le (m : UInt8) (v : UInt64) : (headBytes m v).length ≤ 9 := by
  rw [headBytes]
  split_ifs
  · exact Nat.le_of_ble_eq_true rfl
  · rw [List.length_cons, length_beBytes]; omega
  · rw [List.length_cons, length_beBytes]; omega
  · rw [List.length_cons, length_beBytes]; omega
  · rw [List.length_cons, length_beBytes]

theorem length_tokensBytes_le (ts : List CborToken) : (tokensBytes ts).length ≤ tokensCost ts := by
  induction ts with
  | nil => exact Nat.zero_le _
  | cons t ts ih =>
    rw [tokensBytes_cons, List.length_append]
    rcases t with ⟨m, v⟩ | ⟨m, data⟩
    · exact Nat.add_le_add (length_headBytes_le m v) ih
    · rw [CborToken.bytes, List.length_append]
      exact Nat.add_le_add (Nat.add_le_add_right (length_headBytes_le _ _) _) ih

theorem tokensCost_append (ts us : List CborToken) :
    tokensCost (ts ++ us) = tokensCost ts + tokensCost us := by
  induction ts with
  | nil => exact (Nat.zero_add _).symm
  | cons t ts ih =>
    rcases t with ⟨m, v⟩ | ⟨m, data⟩
    · rw [List.cons_append, tokensCost, tokensCost, ih, Nat.add_assoc]
    · rw [List.cons_append, tokensCost, tokensCost, ih, ← Nat.add_assoc]

theorem tokensCost_fields (fields : List (CustomField Bytes)) :
    tokensCost (fields.flatMap fieldTokens) =
      (fields.map fun field => 63 + field.name.length + field.value.length).sum := by
  induction fields with
  | nil => rfl
  | cons field fields ih =>
    rw [List.flatMap_cons, tokensCost_append, ih, List.map_cons, List.sum_cons]
    simp only [fieldTokens, List.flatten_cons, List.flatten_nil, List.cons_append, List.nil_append,
      tokensCost]
    omega

/-- A bound for a payload of one record without lists of texts. -/
theorem length_payload_le (h : payload.records = [r]) (hurls : r.urls = []) (htags : r.tags = []) :
    (payloadBytes payload).length ≤ 391 + r.title.length + r.username.length + r.password.length +
      r.notes.length + tokensCost (r.fields.flatMap fieldTokens) := by
  have hid : payload.deviceId.bytes.length = 16 := payload.deviceId.length_eq
  have hrid : r.id.bytes.length = 16 := r.id.length_eq
  refine le_trans (length_tokensBytes_le _) ?_
  simp only [payloadTokens, h, recordTokens, textTokens, List.flatten_cons, List.flatten_nil,
    List.flatMap_cons, List.flatMap_nil, List.append_nil, List.nil_append, List.cons_append,
    tokensCost, hurls, htags, hid, hrid]
  omega

/-- **Does a saved vault load again?** A vault the program has built and encoded is decoded
into a fresh vault, with the same contents, whenever its edits cost no alignment or its arena
has eight bytes left for each unit they cost. It is refused with `PV_ERR_LIMIT` exactly when
its records, laid out anew, do not fit. -/
theorem reached_vault_reloads {debt : Nat} {vault fresh : Vault Hash} (hreach : Reached debt vault)
    {mem : Bool} {out : Bytes} (henc : pvCborEncode vault mem = (.ok, out)) {zeroHash : Hash}
    {path : Bytes} {arenaMem vmkMem : SecureAlloc}
    (hinit : pvModelInit zeroHash path arenaMem vmkMem = .ok fresh) {env : DecodeEnv}
    (hstream : StreamDecodes env.streamDecode) (hro : env.readonly = true) :
    ((debt = 0 ∨ vault.arena.used + 8 * debt ≤ pvArenaCapacity) →
      ∃ vault', pvCborDecode env out fresh = some (.ok, vault') ∧ vault'.payload = vault.payload) ∧
    ((∃ vault', pvCborDecode env out fresh = some (.errLimit, vault')) ↔
      pvArenaCapacity < rebuiltEnd (vault.view.map Record.lengths)) := by
  have hinv := hreach.rebuildable
  obtain ⟨hfits, hover⟩ := hinv.reload (pvModelInit_ok hinit) henc hstream hro
  have hused := vault.arena.used_le
  have hcap := hinv.capacity_eq
  have hend := hinv.end_le
  rw [← hinv.view_lengths] at hend
  refine ⟨fun hroom => hfits ?_, fun hlimit => ?_, hover⟩
  · rcases hroom with rfl | hroom
    · omega
    · exact le_trans hend hroom
  · by_contra hle
    obtain ⟨vault', hdec⟩ := hlimit
    obtain ⟨vault'', hdec', -⟩ := hfits (Nat.not_lt.mp hle)
    rw [hdec] at hdec'
    cases hdec'

/-- A record with a title and one custom field. -/
def smallRecord : Record Bytes where
  id := Block.ofBytes _ [9]
  revision := 1
  createdMs := 1
  updatedMs := 1
  flags := 0
  title := [65]
  username := []
  password := []
  notes := []
  urls := []
  tags := []
  fields := [⟨[110], [0], 0⟩]

/-- The theorem at a record whose user name was filled in: the edit costs one unit, and the arena
has more than eight bytes left. -/
theorem reached_vault_reloads_named :
    ∃ (fresh vault vault' : Vault Unit) (out : Bytes),
      pvModelInit () [] .allocated .allocated = .ok fresh ∧ Reached 1 vault ∧
      vault.view = [smallRecord.named] ∧ vault.arena.used + 8 * 1 ≤ pvArenaCapacity ∧
      pvCborEncode vault true = (.ok, out) ∧
      pvCborDecode sampleEnv out fresh = some (.ok, vault') ∧ vault'.payload = vault.payload := by
  obtain ⟨fresh, hinit⟩ := pvModelInit_granted () (show ([] : Bytes).length < pathMax by decide)
  obtain ⟨vault, out, hreached, hholds, hused, henc⟩ := exists_named_vault hinit
    (show pvModelValidateRecord smallRecord = .ok by decide) rfl rfl (by decide) fun payload h => by
      refine le_trans (length_payload_le h rfl rfl) ?_
      decide
  have hroom : vault.arena.used + 8 * 1 ≤ pvArenaCapacity := by
    rw [hused]
    decide
  have hstream : StreamDecodes sampleEnv.streamDecode := streamDecodes_plain
  obtain ⟨vault', hdec, hpayload⟩ :=
    (reached_vault_reloads hreached henc hinit hstream rfl).1 (.inr hroom)
  exact ⟨fresh, vault, vault', out, hinit, hreached, hholds.view_eq, hroom, henc, hdec, hpayload⟩

/-! ## A vault that does not load again -/

/-- A record that nearly fills the arena: a title, and 32 fields with two MiB of values. -/
def fullRecord : Record Bytes where
  id := Block.ofBytes _ [9]
  revision := 1
  createdMs := 1
  updatedMs := 1
  flags := 0
  title := List.replicate 7 65
  username := []
  password := []
  notes := []
  urls := []
  tags := []
  fields := List.replicate 31 ⟨[110], List.replicate 65536 0, 0⟩ ++ [⟨[110], List.replicate 61589 0, 0⟩]

/-- Its lengths. -/
def fullLengths : Record Nat where
  id := Block.ofBytes _ [9]
  revision := 1
  createdMs := 1
  updatedMs := 1
  flags := 0
  title := 7
  username := 0
  password := 0
  notes := 0
  urls := []
  tags := []
  fields := List.replicate 31 ⟨1, 65536, 0⟩ ++ [⟨1, 61589, 0⟩]

theorem fullRecord_lengths : fullRecord.lengths = fullLengths := by
  simp only [Record.lengths, Record.map, fullRecord, fullLengths, CustomField.map, List.map_append,
    List.map_replicate, List.map_singleton, List.length_replicate, List.length_nil, List.map_nil,
    List.length_cons, Nat.zero_add]

theorem fullRecord_fields : ∀ field ∈ fullRecord.fields, field.name = [110] ∧
    field.value.length ≤ pvMaxFieldValue ∧ field.flags = 0 := by
  intro field hf
  rw [fullRecord, List.mem_append, List.mem_singleton] at hf
  rcases hf with hf | rfl
  · rw [List.eq_of_mem_replicate hf]
    exact ⟨rfl, by rw [List.length_replicate], rfl⟩
  · refine ⟨rfl, ?_, rfl⟩
    rw [List.length_replicate]
    decide

theorem fullRecord_valid : fullRecord.Valid where
  title_le := by decide
  username_le := by decide
  password_le := by decide
  notes_le := by decide
  urls_le := by decide
  tags_le := by decide
  fields_le := by
    rw [fullRecord, List.length_append, List.length_replicate]
    decide
  created_nonneg := by decide
  updated_nonneg := by decide
  flags_known := by decide
  title_text := by decide
  username_text := by decide
  notes_text := by decide
  urls_text := List.forall_mem_nil _
  tags_text := List.forall_mem_nil _
  fields_valid field hf := by
    obtain ⟨hname, hvalue, hflags⟩ := fullRecord_fields field hf
    refine ⟨by rw [hname]; decide, hvalue, by rw [hname]; decide, by rw [hflags]; decide⟩

/-- The sizes are variables here, so that no list of that length is ever evaluated. -/
theorem tokensCost_zeroFields (n m k : Nat) :
    tokensCost ((List.replicate n (CustomField.mk [110] (List.replicate m (0 : UInt8)) 0) ++
      [CustomField.mk [110] (List.replicate k 0) 0]).flatMap fieldTokens) =
      n * (64 + m) + (64 + k) := by
  rw [tokensCost_fields]
  simp only [List.map_append, List.map_replicate, List.map_singleton, List.length_replicate,
    List.length_singleton, List.sum_append, List.sum_replicate_nat, List.sum_singleton]

theorem length_fullPayload (h : payload.records = [fullRecord.named]) :
    (payloadBytes payload).length ≤ pvMaxPlaintext := by
  have hfields : tokensCost (fullRecord.named.fields.flatMap fieldTokens) =
      31 * (64 + 65536) + (64 + 61589) := tokensCost_zeroFields 31 65536 61589
  refine le_trans (length_payload_le h rfl rfl) ?_
  rw [hfields]
  decide

theorem placeAll_fullLengths : placeAll (pvInitialRecordCapacity * sizeofRecord)
    (addRequests 0 pvInitialRecordCapacity fullLengths) = 2097149 := by decide +kernel

/-- **A full vault does not load again.** A record is added that leaves three bytes of the
arena; its empty user name is set to two letters, which takes these three. The vault encodes
and is saved, but laid out anew the name pushes the array of the fields over an alignment
boundary, and `pv_cbor_decode` refuses the snapshot with `PV_ERR_LIMIT`. -/
theorem full_vault_does_not_reload :
    ∃ (fresh vault vault' : Vault Unit) (out : Bytes),
      pvModelInit () [] .allocated .allocated = .ok fresh ∧ Reached 1 vault ∧
      pvCborEncode vault true = (.ok, out) ∧
      pvCborDecode sampleEnv out fresh = some (.errLimit, vault') := by
  obtain ⟨fresh, hinit⟩ := pvModelInit_granted () (show ([] : Bytes).length < pathMax by decide)
  have hrecord : pvModelValidateRecord fullRecord = .ok :=
    pvModelValidateRecord_ok.mpr ⟨fullRecord_valid, by decide, by decide⟩
  obtain ⟨vault, out, hreached, hholds, -, henc⟩ := exists_named_vault hinit hrecord rfl rfl
    (by rw [fullRecord_lengths, placeAll_fullLengths]) fun _ => length_fullPayload
  have hstream : StreamDecodes sampleEnv.streamDecode := streamDecodes_plain
  have hnamed : fullRecord.named.lengths =
      { fullLengths with username := 2, revision := 2, updatedMs := 1 } := by
    rw [← fullRecord_lengths]
    rfl
  have hover : pvArenaCapacity < rebuiltEnd (vault.view.map Record.lengths) := by
    rw [hholds.view_eq, List.map_singleton, hnamed]
    decide +kernel
  obtain ⟨vault', hdec⟩ :=
    (hreached.rebuildable.reload (pvModelInit_ok hinit) henc hstream rfl).2 hover
  exact ⟨fresh, vault, vault', out, hinit, hreached, henc, hdec⟩

end Reached

end PVault
