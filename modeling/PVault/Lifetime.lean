import PVault.Rotation
import PVault.Updates
import PVault.Rewind

/-!
# The vault can always be opened (`src/store.c`, `src/crypto.c`)

Clients open the vault, change records and keyslots, save, create and restore, next to each
other; any call may fail, any client may be stopped, and any of them may try a wrong password,
as long as it does not open the vault. Through all of this the active snapshot opens, with a
password and with a recovery key.

* `OpensTo` — a snapshot opens under both credentials, to these contents.
* `Trusted` — a handle whose saves will: `Trusted.opensTo`, and `OpensTo.trusted` for the way back.
* `Lawful` — what the clients do: they change records as the model does, rewrap the master key
  they have, open with the credentials of the vault, and restore only what opens.
* `vault_always_opens`, `reopens_as_saved` — the results.
-/

namespace PVault

open Binary Conc

/-! ## Snapshots and handles -/

section Snapshots

variable {Hash : Type} {so : Sodium Hash}
variable {env : UnlockEnv} {path credential : Bytes} {recovery : Bool} {disk : DiskFile Hash}

/-- A password and a recovery key. -/
structure Credentials where
  password : Bytes
  recoveryKey : Block pvRecoveryKeyBytes

/-- One of the two, as `open_common` gets it. -/
inductive Credentials.Has (cred : Credentials) : Bytes → Bool → Prop
  | password : cred.Has cred.password false
  | recovery : cred.Has cred.recoveryKey.bytes true

/-- Both keyslots of the header hold the master key. -/
abbrev Credentials.Unlock (so : Sodium Hash) (cred : Credentials) (header : FileHeader)
    (vmk : Block pvWrapKeyBytes) : Prop :=
  SlotsOpen so vmk ⟨header, cred.password, cred.recoveryKey⟩

/-- **A snapshot that opens** under both credentials, to these contents. -/
structure OpensTo (so : Sodium Hash) (cred : Credentials) (vmk : Block pvWrapKeyBytes) (payload : Payload)
    (data : Bytes) : Prop where
  framed : ∃ header ciphertext, data = serialized header ++ ciphertext ∧ header.V1 ∧
    ciphertext.length = header.bodyCiphertextLen.toNat ∧ cred.Unlock so header vmk ∧
    pvCryptoDecryptBody so header vmk ciphertext .granted = (.ok, payloadBytes payload)
  accepted : payload.Accepted
  /-- the records, laid out anew, fit the arena -/
  fits : rebuiltEnd (payload.records.map Record.lengths) ≤ pvArenaCapacity

/-- A vault whose records the program has laid out, with room for what laying them out anew
costs. -/
def Vault.Roomy (vault : Vault Hash) : Prop :=
  ∃ debt, Rebuildable debt vault ∧ (debt = 0 ∨ vault.arena.used + 8 * debt ≤ pvArenaCapacity)

/-- **A handle whose saves open** under both credentials. -/
structure Trusted (so : Sodium Hash) (cred : Credentials) (handle : Handle Hash) : Prop where
  slots : cred.Unlock so handle.2 handle.1.vmk
  roomy : handle.1.Roomy

theorem Rebuildable.of_records {debt : Nat} {vault vault' : Vault Hash} (h : Rebuildable debt vault)
    (hrecords : vault'.records = vault.records) (hcapacity : vault'.recordCapacity = vault.recordCapacity)
    (harena : vault'.arena.used = vault.arena.used ∧ vault'.arena.capacity = vault.arena.capacity) :
    Rebuildable debt vault' where
  capacity_eq := harena.2.trans h.capacity_eq
  bounds r hr := by
    rw [hrecords] at hr
    have hbounds := h.bounds r hr
    rw [Arena.Bounds] at hbounds ⊢
    rw [harena.1]
    exact hbounds
  ids_nodup := by
    rw [hrecords]
    exact h.ids_nodup
  array_eq := by
    rw [hcapacity, hrecords]
    exact h.array_eq
  array_le := by
    rw [hcapacity, harena.1]
    exact h.array_le
  end_le := by
    rw [Vault.lengths, hrecords, harena.1]
    exact h.end_le

theorem Vault.Roomy.of_records {vault vault' : Vault Hash} (h : vault.Roomy)
    (hrecords : vault'.records = vault.records) (hcapacity : vault'.recordCapacity = vault.recordCapacity)
    (harena : vault'.arena.used = vault.arena.used ∧ vault'.arena.capacity = vault.arena.capacity) :
    vault'.Roomy := by
  obtain ⟨debt, hbuilt, hroom⟩ := h
  exact ⟨debt, hbuilt.of_records hrecords hcapacity harena, by rwa [harena.1]⟩

/-- What a roomy vault is encoded into fits an arena again. -/
theorem Vault.Roomy.fits {vault : Vault Hash} (h : vault.Roomy) :
    rebuiltEnd (vault.payload.records.map Record.lengths) ≤ pvArenaCapacity := by
  obtain ⟨debt, hbuilt, hroom⟩ := h
  have hused := vault.arena.used_le
  have hcap := hbuilt.capacity_eq
  have hend := hbuilt.end_le
  rw [← hbuilt.view_lengths] at hend
  rcases hroom with rfl | hroom
  · show rebuiltEnd (vault.view.map Record.lengths) ≤ _
    omega
  · exact le_trans hend hroom

variable {cred : Credentials} {vmk : Block pvWrapKeyBytes} {payload : Payload} {data : Bytes}
  {vault : Vault Hash} {header : FileHeader}

/-- **What a trusted handle is sealed into opens**, to the contents of the vault. -/
theorem Trusted.opensTo (hcorrect : so.AeadCorrect) (h : Trusted so cred (vault, header))
    (husable : header.Usable) {env : SaveEnv} {new : Bytes} (hseals : SealsInto so env vault header new) :
    OpensTo so cred vault.vmk (vault.stamped env.now).payload new := by
  obtain ⟨header', ciphertext, hseal, hnew⟩ := hseals
  obtain ⟨encoded, hencode, hencrypt⟩ := sealVault_ok hseal
  have hroomy : (vault.stamped env.now).Roomy := h.roomy.of_records rfl rfl ⟨rfl, rfl⟩
  obtain ⟨debt, hbuilt, -⟩ := id hroomy
  obtain ⟨haccepted, hencoded⟩ := hbuilt.accepted hencode
  rw [hencoded] at hencrypt
  obtain ⟨hv1, hlen, -⟩ := pvCryptoEncryptBody_v1 husable hencrypt
  have hstep : RotationStep so vault.vmk ⟨header, cred.password, cred.recoveryKey⟩
      ⟨header', cred.password, cred.recoveryKey⟩ := .encryptBody hencrypt
  refine ⟨⟨header', ciphertext, hnew, hv1, hlen, hstep.slotsOpen h.slots, ?_⟩, haccepted, hroomy.fits⟩
  exact pvCryptoDecryptBody_encrypt hcorrect hencrypt

/-- The header of a new vault can be used. -/
theorem pvCryptoCreateHeader_usable {requested : FileHeader} {draws : HeaderDraws} {mem mem' : KeyMemory}
    (hid : requested.vaultId ≠ Block.zero _)
    (h : pvCryptoCreateHeader so requested cred.password cred.recoveryKey vmk draws mem mem' =
      (.ok, header)) : header.Usable := by
  rw [pvCryptoCreateHeader] at h
  split at h
  swap
  · next hne _ => exact absurd (Prod.mk.inj h).1 (fun hok => hne (hok ▸ rfl))
  next mid hpassword =>
  obtain ⟨slot, key, hmid, hkey, -⟩ := pvCryptoRewrapPassword_ok hpassword
  obtain ⟨slot', -, hheader, -⟩ := pvCryptoRewrapRecovery_ok h
  rw [passwordKey] at hkey
  split_ifs at hkey with hlimits
  simp only [not_or, UInt64.not_lt] at hlimits
  obtain ⟨-, -, hops, hops', hmem, hmem'⟩ := hlimits
  rw [hheader, hmid]
  refine ⟨rfl, rfl, rfl, rfl, rfl, ?_, rfl, rfl, rfl, rfl,
    ⟨UInt64.le_iff_toNat_le.mp hops, UInt64.le_iff_toNat_le.mp hops'⟩,
    ⟨UInt64.le_iff_toNat_le.mp hmem, UInt64.le_iff_toNat_le.mp hmem'⟩, 1, by decide, by decide, rfl⟩
  show (if requested.vaultId.bytes.any (· != 0) then requested.vaultId else draws.vaultId) ≠ _
  have hany : requested.vaultId.bytes.any (· != 0) = true := by
    by_contra hnone
    refine hid (Block.allZero_iff.mp (bytesAllZero_iff.mpr fun b hb => ?_))
    simpa using List.any_eq_false.mp (Bool.eq_false_iff.mpr hnone) b hb
  rw [if_pos hany]
  exact hid

/-- A new vault and its header can be trusted. -/
theorem Drawn.trusted {env : CreateEnv} (hid : env.vaultId ≠ Block.zero _)
    (h : Drawn so env path cred.password cred.recoveryKey vault header) :
    Trusted so cred (vault, header) ∧ header.Usable := by
  have hvault := h.vault_eq
  rw [newVault] at hvault
  split at hvault
  · cases hvault
  next fresh hinit =>
  cases hvault
  refine ⟨⟨pvCryptoCreateHeader_slotsOpen h.header_eq, 0, ?_, .inl rfl⟩,
    pvCryptoCreateHeader_usable hid h.header_eq⟩
  exact (pvModelInit_ok hinit).rebuildable.of_records rfl rfl ⟨rfl, rfl⟩

/-- A keyslot gives its credential the key that was wrapped in it. -/
theorem unlockVmk_has (hcorrect : so.AeadCorrect) (hslots : cred.Unlock so header vmk)
    (hhas : cred.Has credential recovery) {vmk' : Block pvWrapKeyBytes}
    (h : unlockVmk so env header credential recovery = (.ok, vmk')) :
    vmk' = vmk := by
  obtain ⟨⟨key, hkey, hpassword⟩, ⟨key', hkey', hrecovery⟩⟩ := hslots
  cases hhas with
  | password =>
    rw [unlockVmk, if_neg (by decide), pvCryptoUnlockPassword] at h
    split at h
    · next hne => exact absurd (Prod.mk.inj h).1 hne
    split at h
    · next hbad => exact absurd (Prod.mk.inj h).1 (PvStatus.ne_ok (passwordKey_refused hbad))
    · next hgot =>
      rw [passwordKey] at hgot hkey
      split_ifs at hgot hkey
      cases hgot
      cases hkey
      rw [unwrapVmk_wrapped hcorrect hpassword] at h
      exact (Prod.mk.inj h).2.symm
  | recovery =>
    rw [unlockVmk, if_pos rfl, if_neg (not_not.mpr cred.recoveryKey.length_eq), Block.ofBytes_bytes,
      pvCryptoUnlockRecovery, hkey'] at h
    split at h
    · next hne => exact absurd (Prod.mk.inj h).1 hne
    · have hgiven := unwrapVmk_wrapped hcorrect hrecovery
      exact (Prod.mk.inj (hgiven.symm.trans h)).2.symm

/-- The file that is read of a snapshot. -/
theorem OpensTo.framed_disk (h : OpensTo so cred vmk payload data) (hreads : disk.Reads so data) :
    disk.header.V1 ∧ cred.Unlock so disk.header vmk ∧
      pvCryptoDecryptBody so disk.header vmk disk.ciphertext .granted = (.ok, payloadBytes payload) := by
  obtain ⟨header, ciphertext, hdata, hv1, hlen, hslots, hbody⟩ := h.framed
  have hsealed : (sealedDisk so header ciphertext disk.stat).Reads so data := by
    rw [hdata]
    exact sealedDisk_reads _ hv1 hlen
  obtain ⟨hhead, hcipher⟩ := hreads.parts_eq hsealed
  have hdecode := hreads.decode_eq
  rw [hhead, hsealed.decode_eq] at hdecode
  obtain rfl : header = disk.header := (Prod.mk.inj hdecode).2
  rw [hcipher]
  exact ⟨hv1, hslots, hbody⟩

theorem OpensTo.reads (h : OpensTo so cred vmk payload data) :
    ∃ disk : DiskFile Hash, disk.Reads so data := by
  obtain ⟨header, ciphertext, hdata, hv1, hlen, -⟩ := h.framed
  refine ⟨sealedDisk so header ciphertext ((publishedInode data 0o600).stat 0), ?_⟩
  rw [hdata]
  exact sealedDisk_reads _ hv1 hlen

/-- **Either credential opens the snapshot**, when there is memory for it. -/
theorem OpensTo.opens (hcorrect : so.AeadCorrect) (h : OpensTo so cred vmk payload data)
    (hreads : disk.Reads so data) (henv : env.Grants) (hpath : path.length < pathMax)
    (hhas : cred.Has credential recovery) :
    ∃ vault, openDisk so env path credential recovery disk = .ok (vault, disk.header) := by
  obtain ⟨-, hslots, hbody⟩ := h.framed_disk hreads
  have hunlock : unlockVmk so env disk.header credential recovery = (.ok, vmk) := by
    rw [unlockVmk, henv.key_eq]
    cases hhas with
    | password => exact hslots.unlockPassword hcorrect _
    | recovery =>
      rw [if_pos rfl, if_neg (not_not.mpr cred.recoveryKey.length_eq), Block.ofBytes_bytes]
      exact hslots.unlockRecovery hcorrect rfl _
  exact openDisk_decrypted h.accepted h.fits henv hpath hunlock hbody

/-- **What is opened can be trusted**, when it is opened with one of the credentials that the header
is sealed under. -/
theorem openDisk_trusted (hcorrect : so.AeadCorrect)
    (hopen : openDisk so env path credential recovery disk = .ok (vault, header))
    (hslots : cred.Unlock so header vmk) (hhas : cred.Has credential recovery) :
    Trusted so cred (vault, header) ∧ vault.vmk = vmk := by
  obtain ⟨rfl, vmk', key, body, payload, start, hfrom⟩ := openDisk_opened hopen
  obtain rfl := unlockVmk_has hcorrect hslots hhas hfrom.unwrapped
  have hvmk : vault.vmk = vmk' := by
    obtain ⟨filled, hfilled, rfl⟩ := hfrom.decoded.filled
    show filled.vmk = vmk'
    rw [hfilled.rest_eq]
  have hfresh : Fresh { start with
      vaultId := disk.header.vaultId, vmk := vmk', sourceHash := disk.hash } :=
    { pvModelInit_ok hfrom.started with }
  refine ⟨⟨by rw [hvmk]; exact hslots, 0, ?_, .inl rfl⟩, hvmk⟩
  exact hfrom.decoded.rebuildable hfresh hfrom.accepted.ids_nodup

/-- **What is opened of the snapshot** with one of its credentials has its contents and its master
key. -/
theorem OpensTo.trusted (hcorrect : so.AeadCorrect) (h : OpensTo so cred vmk payload data)
    (hreads : disk.Reads so data) (hhas : cred.Has credential recovery)
    (hopen : openDisk so env path credential recovery disk = .ok (vault, header)) :
    Trusted so cred (vault, header) ∧ vault.vmk = vmk ∧ vault.payload = payload ∧
      vault.sourceHash = so.generichash data := by
  obtain ⟨-, hslots, hbody⟩ := h.framed_disk hreads
  obtain ⟨rfl, vmk', key, body, payload', start, hfrom⟩ := openDisk_opened hopen
  obtain ⟨htrusted, hvmk⟩ := openDisk_trusted hcorrect hopen hslots hhas
  obtain rfl := unlockVmk_has hcorrect hslots hhas hfrom.unwrapped
  -- Decryption does not depend on the memory it was given.
  obtain ⟨key', body', hkey', -, hbody', hplain⟩ := pvCryptoDecryptBody_ok hbody
  obtain rfl : key = key' := Except.ok.inj (hfrom.key_eq.symm.trans hkey')
  obtain rfl : body = body' := Option.some.inj (hfrom.authenticated.symm.trans hbody')
  obtain rfl : payload = payload' :=
    (payloadBytes_prefix_free h.accepted hfrom.accepted
      ((List.append_nil _).trans (hplain.trans hfrom.plaintext_eq))).1
  have hfresh : Fresh { start with
      vaultId := disk.header.vaultId, vmk := vmk', sourceHash := disk.hash } :=
    { pvModelInit_ok hfrom.started with }
  exact ⟨htrusted, hvmk, hfrom.decoded.payload_eq hfresh.toEmpty,
    hfrom.hash_eq.trans hreads.hash_eq⟩

end Snapshots

/-! ## Clients -/

section Clients

variable {Hash : Type} [DecidableEq Hash] (so : Sodium Hash) (path : Bytes) (creds : Credentials → Prop)

/-- The calls that clients make: they create with known credentials and restore what opens. -/
def StoreCall.Sensible : StoreCall Hash → Prop
  | .opens .. => True
  | .saves .. => True
  | .creates _ env password recoveryKey => creds ⟨password, recoveryKey⟩ ∧ env.vaultId ≠ Block.zero _
  | .restores _ _ _ expected => ∃ cred vmk payload data, creds cred ∧ OpensTo so cred vmk payload data ∧
      so.generichash data = expected

/-- Who opened the vault did so with one of the credentials that its header is sealed under. -/
def StoreCall.Entitled : (call : StoreCall Hash) → call.Out → Prop
  | .opens _ _ credential recovery => fun r => ∀ handle, r = .ok handle →
      ∃ cred vmk, creds cred ∧ cred.Unlock so handle.2 vmk ∧ cred.Has credential recovery
  | .saves .. => fun _ => True
  | .creates .. => fun _ => True
  | .restores .. => fun _ => True

/-- What clients do with a handle: they close it, change its records, or wrap its master key under
other credentials. -/
inductive Tends : Option (Handle Hash) → Option (Handle Hash) → Prop
  | closes (own : Option (Handle Hash)) : Tends own none
  | edits {vault vault' : Vault Hash} {header : FileHeader} (hvmk : vault'.vmk = vault.vmk)
      (hroomy : vault'.Roomy) : Tends (some (vault, header)) (some (vault', header))
  | rewraps {vault : Vault Hash} {header header' : FileHeader} {cred cred' : Credentials}
      (hslots : cred.Unlock so header vault.vmk) (hcred' : creds cred')
      (hstep : RotationStep so vault.vmk ⟨header, cred.password, cred.recoveryKey⟩
        ⟨header', cred'.password, cred'.recoveryKey⟩) :
      Tends (some (vault, header)) (some (vault, header'))

/-- **A step of a client** who keeps to this. -/
structure Lawful (c : Nat) (s s' : Sessions (store so path)) : Prop where
  step : Sessions.Step c s s'
  begins : ∀ {own : Option (Handle Hash)} {call : StoreCall Hash} {rest : SysM call.Out},
    s.seat c = .idle own → s'.seat c = .busy own call rest → call.Sensible so creds
  answers : ∀ {own : Option (Handle Hash)} {call : StoreCall Hash} {r : call.Out},
    s.seat c = .busy own call (.ret r) → s'.seat c = .idle (call.kept own r) →
    call.Entitled so creds r
  tends : ∀ {own own' : Option (Handle Hash)},
    s.seat c = .idle own → s'.seat c = .idle own' → Tends so creds own own'

/-- Steps of such clients, in any order. -/
abbrev LawfulRun : Sessions (store so path) → Sessions (store so path) → Prop :=
  Relation.ReflTransGen fun s s' => ∃ c, Lawful so path creds c s s'

/-- **There is no vault, or one that opens** under credentials that somebody chose. -/
def Stands (w : World) : Prop :=
  w.fs.entry path = .absent ∨ ∃ location cred vmk payload data, w.fs.At path location ∧
    w.fs.Replaced so location ∧ w.fs.entry path = .holds data ∧ creds cred ∧
    OpensTo so cred vmk payload data

/-- A handle, if there is one, can be trusted. -/
def TrustedOwn (own : Option (Handle Hash)) : Prop :=
  ∀ handle, own = some handle → ∃ cred, creds cred ∧ Trusted so cred handle

/-- **What holds at every point**: the vault opens, every handle can be trusted, and every call
that is under way is sensible and began with such a vault. -/
structure Sound (hinj : Function.Injective so.generichash) (s : Sessions (store so path)) : Prop where
  stands : Stands so path creds s.world
  idle : ∀ {c : Nat} {own : Option (Handle Hash)}, s.seat c = .idle own → TrustedOwn so creds own
  busy : ∀ {c : Nat} {own : Option (Handle Hash)} {call : StoreCall Hash} {rest : SysM call.Out},
    s.seat c = .busy own call rest → TrustedOwn so creds own ∧ call.Sensible so creds ∧
      ∃ s₀, (clients so path hinj).Holds s₀ ∧
        During c own call (World.Step true c) (Stands so path creds) s₀ s

end Clients

section Standing

variable {Hash : Type} {so : Sodium Hash} {path : Bytes} {a b : Fs}

/-- A step of a client leaves a whole, private file under the name, if it leaves one. -/
theorem Fs.Moves.replaced (h : Fs.Moves so path a b) (ha : a.Ordered path)
    (hold : a.entry path ≠ .absent → ∃ location, a.At path location ∧ a.Replaced so location)
    (hnew : ∀ data, b.entry path = .holds data → ∃ disk : DiskFile Hash, disk.Reads so data)
    (hbound : b.entry path ≠ .absent) : ∃ location, b.At path location ∧ b.Replaced so location := by
  cases h with
  | grows habs h =>
    rw [h.entry_eq habs] at hbound
    obtain ⟨location, hat, hreplaced⟩ := hold hbound
    rw [h.eq_of_at habs hat]
    exact ⟨location, hat, hreplaced⟩
  | works hat hcontent h =>
    have hat' := hat.later h.evolves
    have htidy := ha.tidy _ hat
    refine ⟨_, hat', ?_⟩
    rcases h.touches with hlook | ⟨i, hpub, -⟩
    · -- The name was not touched.
      have hsame := (h.evolves.slot_eq (htidy _ _ not_scratch_active) hlook).2
      have hbound' : a.entry path ≠ .absent := by
        rw [hat.entry_eq]
        rw [hat'.entry_eq] at hbound
        exact fun habsent => hbound (hsame.trans habsent)
      obtain ⟨location, hplace, hreplaced⟩ := hold hbound'
      obtain rfl := hplace.unique hat
      exact hreplaced.step h htidy hcontent
    · refine hpub.replaced htidy (hnew _ (hat'.entry_eq.trans ?_))
      simp only [Fs.slot, hpub.lookup_eq, hpub.inode_eq]
      rfl

end Standing

section Handles

variable {Hash : Type} {so : Sodium Hash} {cred : Credentials} {vault : Vault Hash} {header : FileHeader}

/-- The body fields are no part of what the keyslots authenticate. -/
theorem Credentials.Unlock.withBody {vmk : Block pvWrapKeyBytes} (h : cred.Unlock so header vmk)
    {nonce : Block pvWrapNonceBytes} {len : UInt64} :
    cred.Unlock so { header with bodyNonce := nonce, bodyCiphertextLen := len } vmk :=
  ⟨h.of_later_fields rfl, h.of_password_fields rfl⟩

theorem SaveResult.trusted {host : Host} {faults createOnly : Bool} {env : SaveEnv} {plan : Plan} {fs fs' : Fs}
    {r : PvStatus × Handle Hash} (h : SaveResult so host faults env plan vault header createOnly fs r fs')
    (htrusted : Trusted so cred (vault, header)) : Trusted so cred r.2 := by
  have hslots : cred.Unlock so r.2.2 vault.vmk := by
    obtain ⟨nonce, len, hheader⟩ := h.header_eq
    rw [hheader]
    exact Credentials.Unlock.withBody htrusted.slots
  by_cases hcommitted : r.1.Committed
  swap
  · have hvault := (h.refused hcommitted).1
    exact ⟨hvault ▸ hslots, hvault ▸ htrusted.roomy⟩
  rcases (h.committed hcommitted).vault_eq with hvault | ⟨-, hvault⟩
  · refine ⟨by rw [hvault]; exact hslots, ?_⟩
    rw [hvault]
    refine htrusted.roomy.of_records rfl rfl ?_
    show (pvArenaSetReadonly vault.arena env.protect).2.used = _ ∧ _
    rw [pvArenaSetReadonly]
    split <;> exact ⟨rfl, rfl⟩
  · refine ⟨by rw [hvault]; exact hslots, ?_⟩
    rw [hvault]
    exact htrusted.roomy.of_records rfl rfl ⟨rfl, rfl⟩

end Handles

section Steps

variable {Hash : Type} [DecidableEq Hash] {so : Sodium Hash} {path : Bytes} {creds : Credentials → Prop}
  {hinj : Function.Injective so.generichash} {c : Nat} {own : Option (Handle Hash)} {call : StoreCall Hash}
  {s s' s₀ : Sessions (store so path)}

omit [DecidableEq Hash] in
/-- **What a sensible call puts under the name opens.** -/
theorem StoreCall.Commits.opensTo (hinj : Function.Injective so.generichash) (hcorrect : so.AeadCorrect)
    {old new : Slot} (h : call.Commits so path old new) (hsensible : call.Sensible so creds)
    (hoffer : call.Offered own) (hown : TrustedOwn so creds own)
    (husable : ∀ handle, own = some handle → handle.2.Usable) :
    ∃ cred vmk payload data, new = .holds data ∧ creds cred ∧ OpensTo so cred vmk payload data := by
  cases h with
  | saves _ hnew =>
    obtain rfl : own = some _ := hoffer
    obtain ⟨cred, hcred, htrusted⟩ := hown _ rfl
    exact ⟨cred, _, _, _, rfl, hcred, htrusted.opensTo hcorrect (husable _ rfl) hnew⟩
  | @creates host env password recoveryKey _ hnew =>
    obtain ⟨vault, header, hdrawn, hnew⟩ := hnew
    obtain ⟨hcred, hid⟩ := hsensible
    have hdrawn' : Drawn so env path (Credentials.mk password recoveryKey).password
      (Credentials.mk password recoveryKey).recoveryKey vault header := hdrawn
    obtain ⟨htrusted, husable⟩ := hdrawn'.trusted hid
    exact ⟨_, _, _, _, rfl, hcred, htrusted.opensTo hcorrect husable hnew⟩
  | restores hnew =>
    obtain ⟨cred, vmk, payload, data, hcred, hopens, hhash⟩ := hsensible
    obtain rfl := hinj (hhash.trans hnew.1.symm)
    exact ⟨cred, vmk, payload, _, rfl, hcred, hopens⟩

/-- The handle after a save can be trusted like the one before it. -/
theorem Answers.saved_trusted {faults : Bool} {P : World → Prop} {host : Host} {env : SaveEnv}
    {vault : Vault Hash} {header : FileHeader} {retention : Nat} {r : PvStatus × Handle Hash}
    {cred : Credentials} (hholds : (clients so path hinj).Holds s)
    (h : Answers so path faults P c own (.saves host env vault header retention) s r s')
    (htrusted : Trusted so cred (vault, header)) : Trusted so cred r.2 := by
  by_cases hnone : vault.dirty = false ∨ retention = 0
  · rwa [(h.spared hholds hnone).1]
  have hdirty : vault.dirty = true := by
    cases hd : vault.dirty with
    | true => rfl
    | false => exact absurd (.inl hd) hnone
  obtain ⟨-, hout⟩ := h.saves hholds hdirty fun h => hnone (.inr h)
  cases hout with
  | refused => exact htrusted
  | done _ _ _ _ _ hQ _ =>
    exact hQ.2.result.trusted htrusted

/-- **Whatever a call leaves its client with can be trusted.** -/
theorem Answers.kept_trusted {faults : Bool} {r : call.Out} (hcorrect : so.AeadCorrect)
    (hholds : (clients so path hinj).Holds s)
    (h : Answers so path faults (Stands so path creds) c own call s r s')
    (hown : TrustedOwn so creds own) (hentitled : call.Entitled so creds r) :
    TrustedOwn so creds (call.kept own r) := by
  cases call with
  | opens host env credential recovery =>
    cases r with
    | error status => exact hown
    | ok handle =>
      rintro handle' ⟨⟩
      obtain ⟨cred, vmk, hcred, hslots, hhas⟩ := hentitled handle rfl
      obtain ⟨disk, t, -, -, -, -, hopen, -⟩ := h.opened hholds
      exact ⟨cred, hcred, (openDisk_trusted hcorrect hopen hslots hhas).1⟩
  | saves host env vault header retention =>
    obtain rfl : own = some (vault, header) := (h.known hholds).2
    rintro handle ⟨⟩
    obtain ⟨cred, hcred, htrusted⟩ := hown _ rfl
    exact ⟨cred, hcred, h.saved_trusted hholds htrusted⟩
  | creates => exact hown
  | restores => exact hown

omit [DecidableEq Hash] in
theorem Tends.trusted {own' : Option (Handle Hash)} (h : Tends so creds own own')
    (hown : TrustedOwn so creds own) : TrustedOwn so creds own' := by
  cases h with
  | closes => exact fun handle hnone => by cases hnone
  | edits hvmk hroomy =>
    rintro handle ⟨⟩
    obtain ⟨cred, hcred, htrusted⟩ := hown _ rfl
    exact ⟨cred, hcred, by rw [hvmk]; exact htrusted.slots, hroomy⟩
  | rewraps hslots hcred' hstep =>
    rintro handle ⟨⟩
    obtain ⟨cred, -, htrusted⟩ := hown _ rfl
    exact ⟨_, hcred', hstep.slotsOpen hslots, htrusted.roomy⟩

/-- A step leaves a vault that opens, or none. -/
theorem Sound.stands_step (hcorrect : so.AeadCorrect) (h : Sound so path creds hinj s)
    (hholds : (clients so path hinj).Holds s) (hstep : Sessions.Step c s s') :
    Stands so path creds s'.world := by
  by_cases habsent : s'.world.fs.entry path = .absent
  · exact .inl habsent
  -- What is under the name now opens: it was there before, or a call put it there.
  have hopens : ∃ cred vmk payload data, s'.world.fs.entry path = .holds data ∧ creds cred ∧
      OpensTo so cred vmk payload data := by
    rcases step_commits hholds hstep with hsame | ⟨own, call, rest, hseat, hcommits⟩
    · rw [hsame]
      rcases h.stands with habsent' | ⟨-, cred, vmk, payload, data, -, -, hdata, hcred, hopens⟩
      · exact absurd (hsame.trans habsent') habsent
      · exact ⟨cred, vmk, payload, data, hdata, hcred, hopens⟩
    · obtain ⟨hown, hsensible, s₀, hholds₀, hduring⟩ := h.busy hseat
      obtain ⟨hidle, hoffer⟩ := hduring.idle_start
      have hknown := hholds₀.seats c
      rw [hidle] at hknown
      exact hcommits.opensTo hinj hcorrect hsensible hoffer hown
        fun handle heq => (hknown.handle handle heq).usable
  obtain ⟨cred, vmk, payload, data, hdata, hcred, hopensTo⟩ := hopens
  have hplace : ∃ location, s'.world.fs.At path location ∧ s'.world.fs.Replaced so location := by
    have hold : s.world.fs.entry path ≠ .absent →
        ∃ location, s.world.fs.At path location ∧ s.world.fs.Replaced so location := fun hbound => by
      rcases h.stands with habsent' | ⟨location, -, -, -, -, hat, hreplaced, -⟩
      · exact absurd habsent' hbound
      · exact ⟨location, hat, hreplaced⟩
    rcases step_moves hholds hstep with hsame | hmoves
    · rw [hsame] at habsent ⊢
      exact hold habsent
    · refine hmoves.replaced hholds.inv.ordered hold (fun data' hdata' => ?_) habsent
      rw [Slot.holds.inj (hdata'.symm.trans hdata)]
      exact hopensTo.reads
  obtain ⟨location, hat, hreplaced⟩ := hplace
  exact .inr ⟨location, cred, vmk, payload, data, hat, hreplaced, hdata, hcred, hopensTo⟩

/-- **A lawful step keeps everything sound.** -/
theorem Sound.step (hcorrect : so.AeadCorrect) (h : Sound so path creds hinj s)
    (hholds : (clients so path hinj).Holds s) (hlaw : Lawful so path creds c s s') :
    Sound so path creds hinj s' := by
  have hstands := h.stands_step hcorrect hholds hlaw.step
  refine ⟨hstands, fun {j own} hseat => ?_, fun {j own call rest} hseat => ?_⟩
  · by_cases hj : j = c
    swap
    · rw [hlaw.step.seat_ne hj] at hseat
      exact h.idle hseat
    subst hj
    cases hlaw.step with
    | begin | call | leave =>
      rw [Sessions.seat_update] at hseat
      cases hseat
    | finish hbusy =>
      rw [Sessions.seat_update] at hseat
      cases hseat
      obtain ⟨hown, -, s₀, hholds₀, hduring⟩ := h.busy hbusy
      exact Answers.kept_trusted hcorrect hholds₀ ⟨hduring, hbusy⟩ hown
        (hlaw.answers hbusy (Sessions.seat_update ..))
    | think hidle => exact (hlaw.tends hidle hseat).trusted (h.idle hidle)
  · by_cases hj : j = c
    swap
    · -- A call of another client goes on.
      rw [hlaw.step.seat_ne hj] at hseat
      obtain ⟨hown, hsensible, s₀, hholds₀, hduring⟩ := h.busy hseat
      exact ⟨hown, hsensible, s₀, hholds₀, .other hduring hj hlaw.step hstands⟩
    subst hj
    cases hlaw.step with
    | finish | think | leave =>
      rw [Sessions.seat_update] at hseat
      cases hseat
    | begin hidle hoffer =>
      have hsensible := hlaw.begins hidle (Sessions.seat_update ..)
      rw [Sessions.seat_update] at hseat
      cases hseat
      exact ⟨h.idle hidle, hsensible, s, hholds, .begin hidle hoffer h.stands⟩
    | call hbusy hop =>
      rw [Sessions.seat_update] at hseat
      cases hseat
      obtain ⟨hown, hsensible, s₀, hholds₀, hduring⟩ := h.busy hbusy
      exact ⟨hown, hsensible, s₀, hholds₀, .call hduring hbusy hop hop hstands⟩

theorem LawfulRun.run (h : LawfulRun so path creds s s') : Sessions.Run s s' := by
  refine Relation.ReflTransGen.mono ?_ _ _ h
  rintro a b ⟨c, hlaw⟩
  exact ⟨c, hlaw.step⟩

theorem Sound.run (hcorrect : so.AeadCorrect) (h : Sound so path creds hinj s)
    (hholds : (clients so path hinj).Holds s) (hrun : LawfulRun so path creds s s') :
    Sound so path creds hinj s' := by
  induction hrun with
  | refl => exact h
  | tail hprev hstep ih =>
    obtain ⟨c, hlaw⟩ := hstep
    exact ih.step hcorrect (Verified.holds hholds (LawfulRun.run hprev)) hlaw

/-- Everything is sound when the clients begin. -/
theorem Begins.sound (hinj : Function.Injective so.generichash) (hbegins : Begins so path s)
    (hstands : Stands so path creds s.world)
    (hown : ∀ c own, s.seat c = .idle own → TrustedOwn so creds own) : Sound so path creds hinj s := by
  refine ⟨hstands, fun hseat => hown _ _ hseat, fun {c own call rest} hseat => ?_⟩
  obtain ⟨own', hidle, -⟩ := hbegins.idle c
  rw [hidle] at hseat
  cases hseat

end Steps

section Opening

variable {Hash : Type} [DecidableEq Hash] {so : Sodium Hash} {path : Bytes} {creds : Credentials → Prop}
  {start s : Sessions (store so path)} {cred : Credentials} {vmk : Block pvWrapKeyBytes} {payload : Payload}
  {data : Bytes} {c : Nat} {own : Option (Handle Hash)} {host : Host} {env : UnlockEnv} {credential : Bytes}
  {recovery : Bool} {location : Location}

omit [DecidableEq Hash] in
/-- A snapshot in a private file is opened, when no call fails. -/
theorem OpensTo.openCommon (hcorrect : so.AeadCorrect)
    (h : OpensTo so cred vmk payload data) {fs : Fs} (hleads : fs.LeadsTo path location)
    (hholds : fs.HoldsPrivate location data) (henv : env.Grants) (hpath : path.length < pathMax)
    (hhas : cred.Has credential recovery) :
    (files false Alone fun a b => b = a).wp (openCommon so host env path credential recovery)
      (fun r _ => ∃ handle, r = .ok handle ∧ Trusted so cred handle ∧ handle.1.vmk = vmk ∧
        handle.1.payload = payload ∧ handle.1.sourceHash = so.generichash data) fs := by
  obtain ⟨disk, hreads⟩ := h.reads
  obtain ⟨st, -, hshown⟩ := hholds.shows hreads
  refine Sem.wp_mono (openCommon_shown (fun _ => rfl) hleads hshown) ?_
  rintro r fs' ⟨-, disk, hshows, rfl⟩
  obtain ⟨hreads, -⟩ := hholds.reads hshows
  obtain ⟨vault, hopen⟩ := h.opens hcorrect hreads henv hpath hhas
  exact ⟨_, hopen, h.trusted hcorrect hreads hhas hopen⟩

/-- A client that is left alone opens it. -/
theorem OpensTo.answers (hcorrect : so.AeadCorrect) (h : OpensTo so cred vmk payload data)
    (hseat : s.seat c = .idle own) (hleads : s.world.fs.LeadsTo path location)
    (hholds : s.world.fs.HoldsPrivate location data) (henv : env.Grants) (hpath : path.length < pathMax)
    (hhas : cred.Has credential recovery) {P : World → Prop} (hP : ∀ a b, b.fs = a.fs → P a → P b)
    (hp : P s.world) :
    ∃ handle s', Answers so path false P c own (.opens host env credential recovery) s (.ok handle) s' ∧
      (∀ j, j ≠ c → s'.seat j = s.seat j) ∧ Trusted so cred handle ∧ handle.1.vmk = vmk ∧
      handle.1.payload = payload ∧ handle.1.sourceHash = so.generichash data := by
  have hwp : (system false c (fun a b => b = a) fun a b => b.fs = a.fs).wp
      (StoreCall.program so path (.opens host env credential recovery))
      (fun r _ => ∃ handle, r = .ok handle ∧ Trusted so cred handle ∧ handle.1.vmk = vmk ∧
        handle.1.payload = payload ∧ handle.1.sourceHash = so.generichash data) s.world := by
    refine Sem.wp_mono (Sem.wp_lift (S := files false Alone fun a b => b = a) World.fs (fun _ => True) id
      ?_ ?_ trivial (h.openCommon hcorrect hleads hholds henv hpath hhas)) fun _ _ h => h.2
    · rintro w₁ w₂ - rfl
      exact ⟨trivial, rfl⟩
    · rintro w₁ op r w₂ - hstep
      cases hstep with
      | file hstep => exact ⟨hstep, fun hsame => ⟨trivial, hsame⟩⟩
  obtain ⟨_, s', hanswers, hothers, handle, rfl, hopened⟩ :=
    Answers.exists_alone _ hwp hseat trivial hP hp
  exact ⟨handle, s', hanswers, hothers, hopened⟩

/-- **The vault can always be opened.** After any run of lawful clients there is no vault, or one
with a password and a recovery key, known to the clients, under either of which a client that is
left alone opens it. -/
theorem vault_always_opens (hinj : Function.Injective so.generichash) (hcorrect : so.AeadCorrect)
    (hbegins : Begins so path start) (hstands : Stands so path creds start.world)
    (hown : ∀ c own, start.seat c = .idle own → TrustedOwn so creds own)
    (hrun : LawfulRun so path creds start s) :
    s.world.fs.entry path = .absent ∨ ∃ cred vmk payload data, creds cred ∧
      s.world.fs.entry path = .holds data ∧
      ∀ (c : Nat) (own : Option (Handle Hash)) (host : Host) (env : UnlockEnv) (credential : Bytes)
        (recovery : Bool) (location : Location), s.seat c = .idle own → env.Grants →
        path.length < pathMax → s.world.fs.LeadsTo path location → cred.Has credential recovery →
        ∃ handle s', Answers so path false (fun _ => True) c own (.opens host env credential recovery) s
            (.ok handle) s' ∧
          (∀ j, j ≠ c → s'.seat j = s.seat j) ∧ Trusted so cred handle ∧ handle.1.vmk = vmk ∧
          handle.1.payload = payload ∧ handle.1.sourceHash = so.generichash data := by
  have hholds := hbegins.holds hinj
  have hsound := (hbegins.sound hinj hstands hown).run hcorrect hholds hrun
  rcases hsound.stands with habsent | ⟨place, cred, vmk, payload, data, hat, hreplaced, hdata, hcred, hopens⟩
  · exact .inl habsent
  refine .inr ⟨cred, vmk, payload, data, hcred, hdata, ?_⟩
  intro c own host env credential recovery location hseat henv hpath hleads hhas
  obtain rfl := hat.unique hleads.at
  have hprivate : s.world.fs.HoldsPrivate place data := by
    obtain ⟨data', hprivate, -⟩ := hreplaced.holdsPrivate
    rwa [Slot.holds.inj ((hat.entry_eq.trans hprivate.active).symm.trans hdata)] at hprivate
  exact hopens.answers hcorrect hseat hleads hprivate henv hpath hhas (fun _ _ _ h => h) trivial

end Opening

section Reopening

variable {Hash : Type} [DecidableEq Hash] {so : Sodium Hash} {path : Bytes} {creds : Credentials → Prop}
  {start s s₁ : Sessions (store so path)} {c : Nat} {own : Option (Handle Hash)} {faults : Bool}
  {host : Host} {env : SaveEnv} {vault : Vault Hash} {header : FileHeader} {retention : Nat}
  {r : PvStatus × Handle Hash}

/-- **What was saved is what is opened.** After any run of lawful clients, a save that commits puts
a snapshot under the name, and whoever opens the vault while that is active, with one of its two
credentials, gets the contents that were saved under the same master key, with a handle that can be
saved in turn. -/
theorem reopens_as_saved (hinj : Function.Injective so.generichash) (hcorrect : so.AeadCorrect)
    (hbegins : Begins so path start) (hstands : Stands so path creds start.world)
    (hown : ∀ c own, start.seat c = .idle own → TrustedOwn so creds own)
    (hrun : LawfulRun so path creds start s)
    (hsave : Answers so path faults (fun _ => True) c own (.saves host env vault header retention) s r s₁)
    (hdirty : vault.dirty = true) (hretention : retention ≠ 0) (hcommitted : r.1.Committed) :
    ∃ cred turn new, creds cred ∧ Turns c s.world s₁.world [turn] ∧ turn.stop.entry path = .holds new ∧
      SealsInto so env vault header new ∧
      ∀ {j : Nat} {own' : Option (Handle Hash)} {faults' : Bool} {host' : Host} {env' : UnlockEnv}
        {credential : Bytes} {recovery : Bool} {handle : Handle Hash} {s₂ s₃ : Sessions (store so path)},
        Sessions.Run s₁ s₂ →
        Answers so path faults' (fun w => w.fs.entry path = .holds new) j own'
          (.opens host' env' credential recovery) s₂ (.ok handle) s₃ → cred.Has credential recovery →
        handle.1.payload = (vault.stamped env.now).payload ∧ handle.1.vmk = vault.vmk ∧
          handle.1.sourceHash = so.generichash new ∧ Trusted so cred handle := by
  have hholds := hbegins.holds hinj
  have hsound := (hbegins.sound hinj hstands hown).run hcorrect hholds hrun
  have hholds' := Verified.holds hholds (LawfulRun.run hrun)
  obtain ⟨hknown, hoffer⟩ := hsave.known hholds'
  obtain rfl : own = some (vault, header) := hoffer
  obtain ⟨cred, hcred, htrusted⟩ := hsound.idle hsave.during.idle_start.1 _ rfl
  obtain ⟨turn, hturn, old, new, -, -, hstop, hseals, -⟩ :=
    (hsave.saved hholds' hdirty hretention).1 hcommitted
  have hopensTo := htrusted.opensTo hcorrect (hknown.handle _ rfl).usable hseals
  refine ⟨cred, turn, new, hcred, hturn, hstop, hseals, ?_⟩
  intro j own' faults' host' env' credential recovery handle s₂ s₃ hlater hopen hhas
  have hholds₂ := Verified.holds (Verified.holds hholds' hsave.during.run) hlater
  obtain ⟨disk, t, hduring, -, hentry, hreads, hdisk, -⟩ := hopen.opened hholds₂
  obtain rfl : new = disk.bytes := Slot.holds.inj (hduring.holds.symm.trans hentry)
  obtain ⟨vault', header'⟩ := handle
  obtain ⟨htrusted', hvmk, hpayload, hhash⟩ := hopensTo.trusted hcorrect hreads hhas hdisk
  exact ⟨hpayload, hvmk, hhash, htrusted'⟩

end Reopening

/-! ## A vault is made and saved -/

/-- A client in a call goes on alone. -/
theorem LawfulRun.follow {Hash : Type} [DecidableEq Hash] {so : Sodium Hash} {path : Bytes}
    {creds : Credentials → Prop} {s : Sessions (store so path)} {c : Nat} {own : Option (Handle Hash)}
    {call : StoreCall Hash} {p rest : SysM call.Out} {w w' : World} (hseat : s.seat c = .busy own call p)
    (hworld : s.world = w) (hrun : Sem.Run (undisturbed c) p w rest w') :
    ∃ s', LawfulRun so path creds s s' ∧ s'.world = w' ∧ s'.seat c = .busy own call rest ∧
      ∀ j, j ≠ c → s'.seat j = s.seat j := by
  induction hrun generalizing s with
  | refl => exact ⟨s, .refl, hworld, hseat, fun _ _ => rfl⟩
  | env hrely _ ih => exact ih hseat (hworld.trans hrely.symm)
  | call hstep _ ih =>
    subst hworld
    have hnext := Sessions.Step.call (S := store so path) hseat hstep.mayFail
    obtain ⟨s', hlawful, hworld, hseat', hothers⟩ := ih (Sessions.seat_update ..) rfl
    refine ⟨s', .head ⟨c, hnext, fun hidle => ?_, fun _ hidle => ?_, fun hidle => ?_⟩ hlawful, hworld,
      hseat', fun j hne => (hothers j hne).trans (Function.update_of_ne hne ..)⟩
    · rw [hseat] at hidle
      cases hidle
    · rw [Sessions.seat_update] at hidle
      cases hidle
    · rw [hseat] at hidle
      cases hidle

/-- There is no vault yet. -/
def newcomers : Sessions (store Sodium.toy vaultPath) := ⟨emptyWorld, fun _ => .idle none⟩

def firstCredentials : Credentials := ⟨[0x61], firstKey⟩

theorem newcomers_begins : Begins Sodium.toy vaultPath newcomers where
  unlocked := rfl
  unused := rfl
  finished d name i hlook := absurd ((bare_lookup d name).symm.trans hlook) (Option.some_ne_none _).symm
  idle c := ⟨none, rfl, fun _ h => by cases h⟩

theorem newcomers_stands : Stands Sodium.toy vaultPath (· = firstCredentials) newcomers.world :=
  .inl rfl

theorem newcomers_own (c : Nat) (own : Option (Handle Bytes)) (h : newcomers.seat c = .idle own) :
    TrustedOwn Sodium.toy (· = firstCredentials) own := by
  cases h
  exact fun _ h => by cases h

/-- The first client makes the vault. -/
theorem newcomers_create : ∃ s, LawfulRun Sodium.toy vaultPath (· = firstCredentials) newcomers s ∧
    s.world.Stage vaultPath vaultPlace (writtenSnapshot 1 1) [backupName 0] [] ∧
    ∀ c, s.seat c = .idle none := by
  obtain ⟨saved, w, hrun, hstage⟩ := firstStage
  let call : StoreCall Bytes := .creates plainHost firstEnv [0x61] firstKey
  let making : Sessions (store Sodium.toy vaultPath) :=
    ⟨emptyWorld, Function.update newcomers.seat 0 (.busy none call (call.program Sodium.toy vaultPath))⟩
  have hbegin : Lawful Sodium.toy vaultPath (· = firstCredentials) 0 newcomers making := by
    refine ⟨.begin rfl trivial, fun {own call' rest} _ hseat => ?_, fun hseat => ?_, fun _ hseat => ?_⟩
    · rw [Sessions.seat_update] at hseat
      cases hseat
      exact ⟨rfl, by decide⟩
    · cases hseat
    · rw [Sessions.seat_update] at hseat
      cases hseat
  have hfollow : ∃ s', LawfulRun Sodium.toy vaultPath (· = firstCredentials) making s' ∧ s'.world = w ∧
      s'.seat 0 = .busy none call (.ret (.ok, saved)) ∧ ∀ j, j ≠ 0 → s'.seat j = making.seat j :=
    LawfulRun.follow (s := making) (Sessions.seat_update ..) rfl hrun
  obtain ⟨s, hcreates, hworld, hseat, hothers⟩ := hfollow
  have hfinish : Lawful Sodium.toy vaultPath (· = firstCredentials) 0 s
      ⟨s.world, Function.update s.seat 0 (.idle none)⟩ := by
    refine ⟨.finish hseat, fun hidle => ?_, fun hbusy => ?_, fun hidle => ?_⟩
    · rw [hseat] at hidle
      cases hidle
    · rw [hseat] at hbusy
      cases hbusy
      exact fun _ => trivial
    · rw [hseat] at hidle
      cases hidle
  refine ⟨_, (Relation.ReflTransGen.head ⟨0, hbegin⟩ hcreates).tail ⟨0, hfinish⟩, hworld ▸ hstage, fun c => ?_⟩
  by_cases hc : c = 0
  · rw [hc]
    exact Sessions.seat_update ..
  · exact (Function.update_of_ne hc ..).trans ((hothers c hc).trans (Function.update_of_ne hc ..))

/-- After the vault was made, another client opens it with the recovery key. -/
theorem vault_always_opens_created : ∃ s handle s',
    LawfulRun Sodium.toy vaultPath (· = firstCredentials) newcomers s ∧
    Answers Sodium.toy vaultPath false (fun _ => True) 1 none
      (.opens plainHost openingEnv firstKey.bytes true) s (.ok handle) s' ∧
    handle.1.sourceHash = writtenSnapshot 1 1 := by
  obtain ⟨s, hrun, hstage, hidle⟩ := newcomers_create
  have hleads := hstage.orderly.settled.leadsTo
  have hentry : s.world.fs.entry vaultPath = .holds (writtenSnapshot 1 1) :=
    hleads.at.entry_eq.trans hstage.holds.active
  rcases vault_always_opens Sodium.toy_injective Sodium.toy_aeadCorrect newcomers_begins
    newcomers_stands newcomers_own hrun with habsent | ⟨cred, vmk, payload, data, rfl, hdata, hopens⟩
  · rw [hentry] at habsent
    cases habsent
  · obtain ⟨handle, s', hanswers, -, -, -, -, hhash⟩ := hopens 1 none plainHost openingEnv firstKey.bytes true
      vaultPlace (hidle 1) openingEnv_grants (by decide) hleads .recovery
    rw [← Slot.holds.inj (hentry.symm.trans hdata)] at hhash
    exact ⟨s, handle, s', hrun, hanswers, hhash⟩

/-- In an orderly world no file is unfinished. -/
theorem World.Orderly.finished {path : Bytes} {location : Location} {w : World}
    (h : w.Orderly path location) : w.fs.Finished := by
  intro d name i hlook
  by_cases hname : Scratch location d name
  · rw [h.noScratch d name hname] at hlook
    cases hlook
  · exact h.settled.tidy d name hname i hlook

/-- A changed handle on the vault that was made. -/
theorem first_handle : ∃ vault : Vault Bytes, Trusted Sodium.toy firstCredentials (vault, firstHeader) ∧
    vault.path = vaultPath ∧ vault.dirty = true ∧ vault.sourceHash = writtenSnapshot 1 1 ∧
    vault.vaultId = backupHeader.vaultId ∧ vault.generation = 1 ∧
    (vault.stamped (writeEnv 2).now).payload = emptyPayload 2 0 := by
  obtain ⟨vault, hdrawn, hid, -, hpayload⟩ := drawn_first
  have hdrawn' : Drawn Sodium.toy firstEnv vaultPath firstCredentials.password
    firstCredentials.recoveryKey vault firstHeader := hdrawn
  obtain ⟨htrusted, -⟩ := hdrawn'.trusted (by decide)
  refine ⟨{ vault.stamped 0 with sourceHash := writtenSnapshot 1 1, dirty := true },
    ⟨htrusted.slots, htrusted.roomy.of_records rfl rfl ⟨rfl, rfl⟩⟩, hdrawn.path_eq, rfl, rfl, hid,
    congrArg Payload.generation hpayload, ?_⟩
  have hstamped : ∀ (vault : Vault Bytes) (hash : Bytes), ({ vault.stamped 0 with
      sourceHash := hash, dirty := true }.stamped 0).payload =
        { (vault.stamped 0).payload with generation := (vault.stamped 0).payload.generation + 1 } :=
    fun _ _ => rfl
  rw [show (writeEnv 2).now = 0 from rfl, hstamped, hpayload]
  rfl

/-- The first client has it. -/
def firstHandle (vault : Vault Bytes) : Nat → Option (Handle Bytes)
  | 0 => some (vault, firstHeader)
  | _ => none

/-- A client changes the vault that was made and saves it, and another one opens it. -/
theorem reopens_as_saved_changed : ∃ (s s₁ s₂ : Sessions (store Sodium.toy vaultPath))
    (vault : Vault Bytes) (r : PvStatus × Handle Bytes) (new : Bytes) (handle : Handle Bytes),
    Answers Sodium.toy vaultPath true (fun _ => True) 0 (some (vault, firstHeader))
      (.saves plainHost (writeEnv 2) vault firstHeader 20) s r s₁ ∧ r.1 = .ok ∧
    Answers Sodium.toy vaultPath false (fun w => w.fs.entry vaultPath = .holds new) 1 none
      (.opens plainHost openingEnv firstKey.bytes true) s₁ (.ok handle) s₂ ∧
    handle.1.payload = (vault.stamped 0).payload := by
  obtain ⟨s, hrun, hstage, hidle⟩ := newcomers_create
  obtain ⟨vault, htrusted, hpath, hdirty, hhash, hid, hgeneration, hpayload⟩ := first_handle
  have hstands := ((newcomers_begins.sound Sodium.toy_injective newcomers_stands newcomers_own).run
    Sodium.toy_aeadCorrect (newcomers_begins.holds _) hrun).stands
  let begun : Sessions (store Sodium.toy vaultPath) := ⟨⟨s.world.fs, [], []⟩,
    fun c => .idle (firstHandle vault c)⟩
  have hstage' : begun.world.Stage vault.path vaultPlace (writtenSnapshot 1 1) [backupName 0] [] := by
    rw [hpath]
    exact ⟨⟨rfl, hstage.orderly.settled, hstage.orderly.noScratch⟩, hstage.holds, hstage.guarded,
      hstage.listed, hstage.kept⟩
  have hlimits : vault.WithinLimits (writeEnv 2).now := by
    refine ⟨by rw [hgeneration]; decide, ?_, ?_⟩
    · rw [hpayload]
      exact emptyHandle_valid 1 0 0 (by decide)
    · rw [hpayload]
      exact length_emptyPayload 2 0
  obtain ⟨disk, hreads, hdiskId⟩ := writtenSnapshot_reads 1 1
  obtain ⟨current, hq⟩ := hstage'.qualifies hdirty firstHeader_usable (writeEnv_granted 2) hlimits
    (by rw [hgeneration]; decide) hreads hhash.symm (hdiskId.trans hid.symm)
  obtain ⟨r, w', hsave, hok, hsaved⟩ := hstage'.saves (c := 0) plainHost Sodium.toy_injective
    Sodium.toy_documented hq (show 20 ≠ 0 by decide) (by decide)
    (.inl (by rw [hid, hgeneration]; decide +kernel))
    fun p (hp : p ∈ ([] : List (Bytes × Bytes))) => by cases hp
  have hfinished : begun.world.fs.Finished := hstage.orderly.finished
  have hleads := hstage.orderly.settled.leadsTo
  have hbegins : Begins Sodium.toy vaultPath begun := by
    refine ⟨rfl, rfl, hfinished, fun c => ⟨firstHandle vault c, rfl, fun handle hown => ?_⟩⟩
    cases c with
    | succ => cases hown
    | zero =>
    cases hown
    exact ⟨hpath, firstHeader_usable, vaultPlace, _, hleads,
      hleads.at.entry_eq.trans hstage.holds.active, hhash.symm⟩
  have hown : ∀ c own, begun.seat c = .idle own → TrustedOwn Sodium.toy (· = firstCredentials) own := by
    rintro c own ⟨⟩ handle hown
    cases c with
    | succ => cases hown
    | zero =>
    cases hown
    exact ⟨_, rfl, htrusted⟩
  have hbegin : During (S := store Sodium.toy vaultPath) 0 (some (vault, firstHeader))
      (StoreCall.saves plainHost (writeEnv 2) vault firstHeader 20) (World.Step true 0) (fun _ => True)
      begun _ := .begin rfl rfl trivial
  obtain ⟨s₁, hduring, rfl, hret, hothers⟩ := hbegin.follow (Sessions.seat_update ..) rfl hsave
    (fun _ _ h => h) (fun _ _ _ _ h => ⟨h.mayFail, h.mayFail⟩) fun _ => trivial
  obtain ⟨cred, -, new, rfl, -, -, hseals, hlater⟩ := reopens_as_saved
    Sodium.toy_injective Sodium.toy_aeadCorrect hbegins hstands hown .refl
    ⟨hduring, hret⟩ hdirty (by decide) (.inl hok)
  obtain ⟨header, ciphertext, hsealed, hnew⟩ := id hseals
  rw [hsealed, hpath] at hsaved
  have hleads' := hsaved.orderly.settled.leadsTo
  have hholds : s₁.world.fs.HoldsPrivate vaultPlace new := hnew ▸ hsaved.holds
  have hseat : s₁.seat 1 = .idle none := hothers 1 Nat.one_ne_zero
  obtain ⟨handle, s₂, hopen, -⟩ := (htrusted.opensTo Sodium.toy_aeadCorrect firstHeader_usable hseals).answers
    (P := fun w => w.fs.entry vaultPath = .holds new) Sodium.toy_aeadCorrect hseat hleads' hholds
    openingEnv_grants (by decide) .recovery (fun _ _ hfs h => hfs ▸ h)
    (hleads'.at.entry_eq.trans hholds.active)
  exact ⟨begun, s₁, s₂, vault, r, new, handle, ⟨hduring, hret⟩, hok, hopen, (hlater .refl hopen .recovery).1⟩

end PVault
