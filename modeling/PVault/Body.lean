import Mathlib.Order.Bounds.Basic
import PVault.Crypto

/-!
# The framed body (`src/crypto.c`)

A body is the length of the plaintext, the plaintext and random padding up to the next
page. `bodyFraming` says which plaintexts can be framed, how long the result is, and that
the frame is undone by decryption whatever the padding was.
-/

namespace PVault

open Binary

/-- The libsodium functions behave as documented on inputs of the right lengths: key
derivation does not fail, and encryption does not fail and adds a tag. -/
structure Sodium.Documented {Hash : Type} (so : Sodium Hash) : Prop where
  kdf_isSome : ∀ n context key, (so.kdfDeriveFromKey n context key).isSome = true
  encrypt_tag : ∀ key nonce aad message, ∃ ciphertext,
    so.aeadEncrypt key nonce aad message = some ciphertext ∧
      ciphertext.length = message.length + pvBodyTagBytes

theorem Sodium.toy_documented : Sodium.toy.Documented where
  kdf_isSome _ _ _ := rfl
  encrypt_tag key nonce aad message := by
    refine ⟨_, rfl, ?_⟩
    rw [List.length_append, List.length_take, key.length_eq]
    rfl

section Framing

variable {Hash : Type} {so : Sodium Hash}
variable {header : FileHeader} {vmk : Block pvWrapKeyBytes} {plaintext : Bytes} {draws : BodyDraws}
  {mem : BodyMemory}

theorem Sodium.Documented.bodyKey_ok (h : so.Documented) (vmk : Block pvWrapKeyBytes) :
    ∃ key, bodyKey so vmk = .ok key := by
  obtain ⟨key, hkey⟩ := Option.isSome_iff_exists.mp (h.kdf_isSome 1 bodyKdfContext vmk)
  exact ⟨key, by rw [bodyKey, hkey]⟩

/-- A body length is the least page-aligned one that holds the plaintext and its length. -/
theorem paddedLen_isLeast {rawLen : Nat} (h : rawLen ≤ pvMaxPlaintext) :
    IsLeast {n | 4096 ∣ n ∧ rawLen ≤ n} (paddedLen rawLen) := by
  rw [paddedLen_eq h]
  clear h
  have hle : rawLen ≤ (rawLen + 4095) / 4096 * 4096 := by omega
  refine ⟨⟨Dvd.intro_left _ rfl, hle⟩, ?_⟩
  rintro n ⟨⟨k, rfl⟩, hle⟩
  have hk : (rawLen + 4095) / 4096 ≤ k := by omega
  calc (rawLen + 4095) / 4096 * 4096 ≤ k * 4096 := Nat.mul_le_mul_right _ hk
    _ = 4096 * k := Nat.mul_comm _ _

/-- The largest plaintext is a page-aligned body without its length. -/
theorem paddedLen_le {rawLen : Nat} (h : rawLen ≤ pvMaxPlaintext) :
    paddedLen rawLen ≤ pvMaxPlaintext :=
  (paddedLen_isLeast h).2 ⟨⟨512, rfl⟩, h⟩

/-- An empty plaintext is refused. -/
theorem pvCryptoEncryptBody_empty (header : FileHeader) (vmk : Block pvWrapKeyBytes)
    (draws : BodyDraws) (mem : BodyMemory) :
    pvCryptoEncryptBody so header vmk [] draws mem = (.errUsage, header, []) := rfl

/-- A plaintext that does not fit with its length is refused. -/
theorem pvCryptoEncryptBody_long (h : pvMaxPlaintext - 4 < plaintext.length) :
    pvCryptoEncryptBody so header vmk plaintext draws mem = (.errLimit, header, []) := by
  have hmax := pvMaxPlaintext_eq
  rw [pvCryptoEncryptBody, if_neg (by omega)]
  split
  · rfl
  · next rawLen hraw =>
    rw [pvSizeAdd] at hraw
    split at hraw
    · cases hraw
    · cases hraw
      rw [if_pos (by omega)]

/-- **A plaintext that fits is encrypted**, when memory is granted. -/
theorem pvCryptoEncryptBody_fits (hso : so.Documented) (header : FileHeader)
    (vmk : Block pvWrapKeyBytes) (draws : BodyDraws) (hne : plaintext ≠ [])
    (hle : plaintext.length ≤ pvMaxPlaintext - 4) :
    ∃ header' ciphertext,
      pvCryptoEncryptBody so header vmk plaintext draws .granted = (.ok, header', ciphertext) ∧
      ciphertext.length = paddedLen (plaintext.length + 4) + pvBodyTagBytes := by
  have hmax := pvMaxPlaintext_eq
  have hsize := sizeMax_eq
  have hpos : plaintext.length ≠ 0 := fun h => hne (List.length_eq_zero_iff.mp h)
  have hraw : plaintext.length + 4 ≤ pvMaxPlaintext := by omega
  have hpadle := paddedLen_le hraw
  have hpadge : plaintext.length + 4 ≤ paddedLen (plaintext.length + 4) :=
    (paddedLen_isLeast hraw).1.2
  obtain ⟨key, hkey⟩ := hso.bodyKey_ok vmk
  rw [pvCryptoEncryptBody, if_neg hpos, (pvSizeAdd_eq_some (by omega)).mpr ⟨by omega, rfl⟩]
  dsimp only
  rw [if_neg (by omega), if_neg (by omega), if_neg (fun hbad => hbad rfl), hkey]
  dsimp only
  rw [if_neg (by decide)]
  obtain ⟨ciphertext, henc, hlen⟩ := hso.encrypt_tag key draws.nonce
    (serialized { header with
      bodyNonce := draws.nonce
      bodyCiphertextLen := UInt64.ofNat (paddedLen (plaintext.length + 4) + pvBodyTagBytes) })
    (putU32Le (UInt32.ofNat plaintext.length) ++ plaintext ++
      (draws.padding (paddedLen (plaintext.length + 4) - (plaintext.length + 4))).bytes)
  have hlen' : ciphertext.length = paddedLen (plaintext.length + 4) + pvBodyTagBytes := by
    rw [hlen, List.length_append, List.length_append, length_putU32Le, Block.length_bytes]
    omega
  have hword : (UInt64.ofNat (paddedLen (plaintext.length + 4) + pvBodyTagBytes)).toNat =
      paddedLen (plaintext.length + 4) + pvBodyTagBytes := by
    refine UInt64.toNat_ofNat_of_lt' ?_
    have htag : pvBodyTagBytes = 16 := rfl
    have hsize : UInt64.size = 2 ^ 64 := rfl
    omega
  rw [henc]
  dsimp only
  rw [if_neg (by rw [hword, hlen']; exact fun hbad => hbad rfl)]
  exact ⟨_, _, rfl, hlen'⟩

/-- **Decryption undoes a successful encryption**, whatever the padding was. -/
theorem pvCryptoDecryptBody_encrypt (hcorrect : so.AeadCorrect) {header' : FileHeader}
    {ciphertext : Bytes}
    (h : pvCryptoEncryptBody so header vmk plaintext draws mem = (.ok, header', ciphertext)) :
    pvCryptoDecryptBody so header' vmk ciphertext .granted = (.ok, plaintext) := by
  obtain ⟨key, pages, hkey, hpos, hpages, hheader, ⟨padding, henc, hframe⟩, hne, hlen⟩ :=
    pvCryptoEncryptBody_ok h
  have hmax := pvMaxPlaintext_eq
  have htag : pvBodyTagBytes = 16 := rfl
  have hword : header'.bodyCiphertextLen.toNat = ciphertext.length := by
    rw [hheader, hlen]
    refine UInt64.toNat_ofNat_of_lt' ?_
    have hsize : UInt64.size = 2 ^ 64 := rfl
    omega
  have hnonce : header'.bodyNonce = draws.nonce := by rw [hheader]
  have hdec := hcorrect _ _ _ _ _ henc
  -- The frame starts with the length of the plaintext.
  have hget : getU32Le (putU32Le (UInt32.ofNat plaintext.length) ++ plaintext ++ padding) 0 =
      UInt32.ofNat plaintext.length := by
    refine getU32Le_put ?_
    have hfull := slice_full (putU32Le (UInt32.ofNat plaintext.length))
    rw [length_putU32Le] at hfull
    rw [List.append_assoc, slice_append_left (by rw [length_putU32Le]), hfull]
  have hcontent : (UInt32.ofNat plaintext.length).toNat = plaintext.length := by
    refine UInt32.toNat_ofNat_of_lt' ?_
    have hsize : UInt32.size = 2 ^ 32 := rfl
    omega
  have hlength : (putU32Le (UInt32.ofNat plaintext.length) ++ plaintext ++ padding).length =
      pages * 4096 := by
    rw [List.length_append, List.length_append, length_putU32Le]
    omega
  have hplain : 0 < plaintext.length := List.length_pos_of_ne_nil hne
  rw [pvCryptoDecryptBody, if_neg (by omega), if_neg (fun hbad => hbad rfl), hkey]
  dsimp only
  rw [if_neg (by decide), hnonce, hdec]
  dsimp only
  rw [hget, hcontent, hlength, if_neg (by omega), if_neg (by omega)]
  refine congrArg (Prod.mk _) ?_
  rw [slice_append_left (by rw [List.length_append, length_putU32Le])]
  exact slice_append_right (length_putU32Le _).symm rfl

/-- The body length a successful encryption announces passes the checks of the header
decoder. -/
theorem pvCryptoEncryptBody_bodyLen {header' : FileHeader} {ciphertext : Bytes}
    (h : pvCryptoEncryptBody so header vmk plaintext draws mem = (.ok, header', ciphertext)) :
    header'.bodyCiphertextLen.toNat = ciphertext.length ∧
      ∃ k, 1 ≤ k ∧ k ≤ 512 ∧ header'.bodyCiphertextLen.toNat = 16 + k * 4096 := by
  obtain ⟨key, pages, -, hpos, hpages, hheader, -, -, hlen⟩ := pvCryptoEncryptBody_ok h
  have htag : pvBodyTagBytes = 16 := rfl
  have hword : header'.bodyCiphertextLen.toNat = pages * 4096 + pvBodyTagBytes := by
    rw [hheader]
    refine UInt64.toNat_ofNat_of_lt' ?_
    have hsize : UInt64.size = 2 ^ 64 := rfl
    omega
  exact ⟨hword.trans hlen.symm, pages, hpos, hpages, by omega⟩

/-- **Body framing.** When memory is granted, exactly the plaintexts of one to
`PV_MAX_PLAINTEXT - 4` bytes are encrypted. The body then is the least number of whole pages
that holds the plaintext and its length, the header announces its length and passes the
length checks of the header decoder, and decryption returns the plaintext, whatever the
padding was. -/
theorem bodyFraming (hso : so.Documented) (hcorrect : so.AeadCorrect) (header : FileHeader)
    (vmk : Block pvWrapKeyBytes) (plaintext : Bytes) (draws : BodyDraws) :
    ((pvCryptoEncryptBody so header vmk plaintext draws .granted).1 = .ok ↔
      1 ≤ plaintext.length ∧ plaintext.length ≤ pvMaxPlaintext - 4) ∧
    (plaintext = [] →
      pvCryptoEncryptBody so header vmk plaintext draws .granted = (.errUsage, header, [])) ∧
    (pvMaxPlaintext - 4 < plaintext.length →
      pvCryptoEncryptBody so header vmk plaintext draws .granted = (.errLimit, header, [])) ∧
    ∀ header' ciphertext,
      pvCryptoEncryptBody so header vmk plaintext draws .granted = (.ok, header', ciphertext) →
      ∃ padded, IsLeast {n | 4096 ∣ n ∧ plaintext.length + 4 ≤ n} padded ∧
        padded ≤ pvMaxPlaintext ∧ ciphertext.length = padded + pvBodyTagBytes ∧
        header'.bodyCiphertextLen.toNat = ciphertext.length ∧
        (¬header'.bodyCiphertextLen < 4096 + 16 ∧ (header'.bodyCiphertextLen - 16) % 4096 = 0 ∧
          ¬header'.bodyCiphertextLen > maximumCiphertext) ∧
        pvCryptoDecryptBody so header' vmk ciphertext .granted = (.ok, plaintext) := by
  have hmax := pvMaxPlaintext_eq
  have hlong : pvMaxPlaintext - 4 < plaintext.length →
      pvCryptoEncryptBody so header vmk plaintext draws .granted = (.errLimit, header, []) :=
    pvCryptoEncryptBody_long
  have hempty : plaintext = [] →
      pvCryptoEncryptBody so header vmk plaintext draws .granted = (.errUsage, header, []) := by
    rintro rfl
    exact pvCryptoEncryptBody_empty header vmk draws _
  have hiff : (pvCryptoEncryptBody so header vmk plaintext draws .granted).1 = .ok ↔
      1 ≤ plaintext.length ∧ plaintext.length ≤ pvMaxPlaintext - 4 := by
    refine ⟨fun hok => ⟨?_, ?_⟩, fun ⟨hpos, hle⟩ => ?_⟩
    · refine Nat.pos_of_ne_zero fun hzero => ?_
      rw [hempty (List.length_eq_zero_iff.mp hzero)] at hok
      cases hok
    · refine Nat.not_lt.mp fun hgt => ?_
      rw [hlong hgt] at hok
      cases hok
    · obtain ⟨header', ciphertext, heq, -⟩ := pvCryptoEncryptBody_fits hso header vmk draws
        (List.length_pos_iff.mp hpos) hle
      rw [heq]
  refine ⟨hiff, hempty, hlong, fun header' ciphertext henc => ?_⟩
  obtain ⟨hpos, hle⟩ := hiff.mp (congrArg Prod.fst henc)
  obtain ⟨header'', ciphertext', heq, hlen⟩ := pvCryptoEncryptBody_fits hso header vmk draws
    (List.length_pos_iff.mp hpos) hle
  rw [henc] at heq
  cases heq
  obtain ⟨hword, hbody⟩ := pvCryptoEncryptBody_bodyLen henc
  have hraw : plaintext.length + 4 ≤ pvMaxPlaintext := by omega
  exact ⟨_, paddedLen_isLeast hraw, paddedLen_le hraw, hlen, hword,
    (bodyLen_checks _).mpr hbody, pvCryptoDecryptBody_encrypt hcorrect henc⟩

/-- The hypotheses are met: the toy library frames a byte into one page. -/
theorem bodyFraming_one_byte :
    Sodium.toy.Documented ∧ Sodium.toy.AeadCorrect ∧
    (pvCryptoEncryptBody Sodium.toy FileHeader.zero (Block.zero _) [0x2a]
      ⟨fun n => Block.zero n, Block.zero _⟩ .granted).1 = .ok :=
  ⟨Sodium.toy_documented, Sodium.toy_aeadCorrect,
    (bodyFraming Sodium.toy_documented Sodium.toy_aeadCorrect FileHeader.zero (Block.zero _) [0x2a]
      ⟨fun n => Block.zero n, Block.zero _⟩).1.mpr (by decide)⟩

end Framing

end PVault
