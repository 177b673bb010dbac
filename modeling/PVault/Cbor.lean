import PVault.Lib.Reader
import PVault.Status
import PVault.Text
import Mathlib.Data.List.Forall2

/-!
# Deterministic CBOR (`src/cbor_codec.c`, primitives)

The writer appends to a bounded buffer and remembers its first error; the reader takes
items off its input and rejects every integer that is not written in the shortest way.

Both sides are described over `CborToken`: an item head, or a string with its head.
`Emits f ts` says that the writer operation `f` appends exactly the bytes of `ts`, and the
reader operations satisfy the judgements of `PVault.Lib.Reader` against the same bytes. That
the two agree on heads is `readsBack_readerValue` and `canonical_readerValue`.
-/

namespace PVault

open Binary

variable {α : Type} {v : UInt64} {inp rest : Bytes} {n maximum : Nat}

/-! ## Item heads -/

/-- The bytes `writer_type_value` writes: the shortest head of the value. -/
def headBytes (major : UInt8) (value : UInt64) : Bytes :=
  if value < 24 then [major <<< 5 ||| UInt8.ofNat value.toNat]
  else if value ≤ 0xff then (major <<< 5 ||| 24) :: beBytes 1 value.toNat
  else if value ≤ 0xffff then (major <<< 5 ||| 25) :: beBytes 2 value.toNat
  else if value ≤ 0xffffffff then (major <<< 5 ||| 26) :: beBytes 4 value.toNat
  else (major <<< 5 ||| 27) :: beBytes 8 value.toNat

/-- An item head, or a byte or text string with its head. -/
inductive CborToken : Type where
  | head (major : UInt8) (value : UInt64)
  | blob (major : UInt8) (data : Bytes)
  deriving DecidableEq

/-- The bytes of a token. -/
def CborToken.bytes : CborToken → Bytes
  | .head major value => headBytes major value
  | .blob major data => headBytes major (UInt64.ofNat data.length) ++ data

/-- The bytes of a sequence of tokens. -/
def tokensBytes (ts : List CborToken) : Bytes := ts.flatMap CborToken.bytes

@[simp] theorem tokensBytes_nil : tokensBytes [] = [] := rfl

@[simp] theorem tokensBytes_cons (t : CborToken) (ts : List CborToken) :
    tokensBytes (t :: ts) = t.bytes ++ tokensBytes ts := List.flatMap_cons ..

@[simp] theorem tokensBytes_append (ts us : List CborToken) :
    tokensBytes (ts ++ us) = tokensBytes ts ++ tokensBytes us := List.flatMap_append ..

theorem tokensBytes_flatMap (f : α → List CborToken) (xs : List α) :
    tokensBytes (xs.flatMap f) = xs.flatMap fun x => tokensBytes (f x) := List.flatMap_assoc

/-! ## The writer -/

/-- `cbor_writer`. -/
structure CborWriter where
  /-- what has been written -/
  data : Bytes
  cap : Nat
  /-- the first error, if any -/
  status : PvStatus
  cap_le : cap ≤ sizeMax

/-- `writer_bytes`. -/
def writerBytes (data : Bytes) (writer : CborWriter) : CborWriter :=
  if writer.status ≠ .ok then writer
  else if data.length = 0 then writer
  else
    match pvSizeAdd writer.data.length data.length with
    | none => { writer with status := .errLimit }
    | some stop =>
      if stop > writer.cap then { writer with status := .errLimit }
      else { writer with data := writer.data ++ data }

/-- `writer_type_value`. -/
def writerTypeValue (major : UInt8) (value : UInt64) : CborWriter → CborWriter :=
  writerBytes (headBytes major value)

/-- `writer_uint`. -/
def writerUint (value : UInt64) : CborWriter → CborWriter := writerTypeValue 0 value

/-- `writer_map`. -/
def writerMap (count : Nat) : CborWriter → CborWriter := writerTypeValue 5 (UInt64.ofNat count)

/-- `writer_array`. -/
def writerArray (count : Nat) : CborWriter → CborWriter := writerTypeValue 4 (UInt64.ofNat count)

/-- `writer_blob`. -/
def writerBlob (major : UInt8) (data : Bytes) (writer : CborWriter) : CborWriter :=
  writerBytes data (writerTypeValue major (UInt64.ofNat data.length) writer)

/-- Writer operations one after the other. -/
def writerAll (ops : List (CborWriter → CborWriter)) (writer : CborWriter) : CborWriter :=
  ops.foldl (fun w op => op w) writer

/-- A loop that writes one item after the other. -/
def writeEach {α : Type} (op : α → CborWriter → CborWriter) (items : List α) :
    CborWriter → CborWriter :=
  writerAll (items.map op)

/-- The operation appends `bs` when there is room for it and records `PV_ERR_LIMIT` when
there is not; after an error it does nothing. -/
structure EmitsBytes (f : CborWriter → CborWriter) (bs : Bytes) : Prop where
  stuck : ∀ w, w.status ≠ .ok → f w = w
  fits : ∀ w, w.status = .ok → w.data.length + bs.length ≤ w.cap →
    f w = { w with data := w.data ++ bs }
  full : ∀ w, w.status = .ok → w.data.length ≤ w.cap → w.cap < w.data.length + bs.length →
    (f w).status = .errLimit

/-- The operation appends the tokens. -/
def Emits (f : CborWriter → CborWriter) (ts : List CborToken) : Prop :=
  EmitsBytes f (tokensBytes ts)

theorem emitsBytes_writerBytes (bs : Bytes) : EmitsBytes (writerBytes bs) bs := by
  refine ⟨fun w hw => ?_, fun w hw hfit => ?_, fun w hw hle hover => ?_⟩
  · rw [writerBytes, if_pos hw]
  · have hcap := w.cap_le
    rw [writerBytes, if_neg (not_not.mpr hw)]
    by_cases hempty : bs.length = 0
    · rw [if_pos hempty, List.length_eq_zero_iff.mp hempty, List.append_nil]
    · rw [if_neg hempty, (pvSizeAdd_eq_some (by omega)).mpr ⟨by omega, rfl⟩]
      exact if_neg (Nat.not_lt.mpr hfit)
  · have hcap := w.cap_le
    rw [writerBytes, if_neg (not_not.mpr hw), if_neg (by omega)]
    rcases hadd : pvSizeAdd w.data.length bs.length with _ | stop
    · rfl
    · obtain ⟨-, rfl⟩ := (pvSizeAdd_eq_some (by omega)).mp hadd
      dsimp only
      rw [if_pos hover]

theorem EmitsBytes.comp {f g : CborWriter → CborWriter} {as bs : Bytes} (hf : EmitsBytes f as)
    (hg : EmitsBytes g bs) : EmitsBytes (fun w => g (f w)) (as ++ bs) := by
  refine ⟨fun w hw => ?_, fun w hw hfit => ?_, fun w hw hle hover => ?_⟩
  · rw [hf.stuck w hw, hg.stuck w hw]
  · rw [List.length_append] at hfit
    have hsecond := hg.fits { w with data := w.data ++ as } hw (by
      dsimp only
      rw [List.length_append]
      omega)
    rw [hf.fits w hw (by omega), hsecond, List.append_assoc]
  · rw [List.length_append] at hover
    by_cases hfirst : w.data.length + as.length ≤ w.cap
    · rw [hf.fits w hw hfirst]
      refine hg.full _ hw ?_ ?_
      · rw [List.length_append]
        exact hfirst
      · dsimp only
        rw [List.length_append]
        omega
    · have hlimit := hf.full w hw hle (Nat.lt_of_not_le hfirst)
      rw [hg.stuck _ (by rw [hlimit]; decide)]
      exact hlimit

theorem Emits.comp {f g : CborWriter → CborWriter} {ts us : List CborToken} (hf : Emits f ts)
    (hg : Emits g us) : Emits (fun w => g (f w)) (ts ++ us) := by
  rw [Emits, tokensBytes_append]
  exact EmitsBytes.comp hf hg

theorem emits_nil : Emits id [] :=
  ⟨fun _ _ => rfl, fun w _ _ => by simp, fun w _ hle hover => by simp at hover; omega⟩

theorem emits_writerTypeValue (major : UInt8) (value : UInt64) :
    Emits (writerTypeValue major value) [.head major value] := by
  rw [Emits, tokensBytes_cons, tokensBytes_nil, List.append_nil]
  exact emitsBytes_writerBytes _

theorem emits_writerBlob (major : UInt8) (data : Bytes) :
    Emits (writerBlob major data) [.blob major data] := by
  rw [Emits, tokensBytes_cons, tokensBytes_nil, List.append_nil]
  exact (emitsBytes_writerBytes _).comp (emitsBytes_writerBytes data)

theorem emits_writerUint (value : UInt64) : Emits (writerUint value) [.head 0 value] :=
  emits_writerTypeValue 0 value

theorem emits_writerMap (count : Nat) : Emits (writerMap count) [.head 5 (UInt64.ofNat count)] :=
  emits_writerTypeValue 5 _

theorem emits_writerArray (count : Nat) :
    Emits (writerArray count) [.head 4 (UInt64.ofNat count)] :=
  emits_writerTypeValue 4 _

/-- A sequence of operations emits their tokens one after the other. -/
theorem emits_writerAll {ops : List (CborWriter → CborWriter)} {groups : List (List CborToken)}
    (h : List.Forall₂ Emits ops groups) : Emits (writerAll ops) groups.flatten := by
  induction h with
  | nil => exact emits_nil
  | cons hop _ ih => exact hop.comp ih

theorem emits_writeEach {op : α → CborWriter → CborWriter} {ts : α → List CborToken}
    (h : ∀ x, Emits (op x) (ts x)) (items : List α) :
    Emits (writeEach op items) (items.flatMap ts) := by
  refine emits_writerAll ?_
  induction items with
  | nil => exact List.Forall₂.nil
  | cons x xs ih => exact List.Forall₂.cons (h x) ih

/-! ## The reader -/

/-- `reader_take`. -/
def readerTake : Reader PvStatus UInt8 := fun inp =>
  match inp with
  | [] => .error .errFormat
  | b :: rest => .ok (b, rest)

/-- The next `n` bytes. -/
def readerBytes (n : Nat) : Reader PvStatus Bytes := fun inp =>
  if n > inp.length then .error .errFormat else .ok (inp.take n, inp.drop n)

/-- The width that follows an initial byte. -/
def readerWidth (additional : UInt8) : Option Nat :=
  if additional = 24 then some 1
  else if additional = 25 then some 2
  else if additional = 26 then some 4
  else if additional = 27 then some 8
  else none

/-- The value could have been written in fewer bytes. -/
def overlong (width : Nat) (decoded : UInt64) : Bool :=
  (width = 1 ∧ decoded < 24) ∨ (width = 2 ∧ decoded ≤ 0xff) ∨ (width = 4 ∧ decoded ≤ 0xffff) ∨
    (width = 8 ∧ decoded ≤ 0xffffffff)

/-- `reader_value`. -/
def readerValue (expectedMajor : UInt8) : Reader PvStatus UInt64 := do
  let initial ← readerTake
  Reader.require (initial >>> 5 == expectedMajor) .errFormat
  let additional := initial &&& 0x1f
  if additional < 24 then pure (UInt64.ofNat additional.toNat)
  else
    match readerWidth additional with
    | none => throw .errFormat
    | some width => do
      let bytes ← readerBytes width
      let decoded := UInt64.ofNat (beNat bytes)
      Reader.require (!overlong width decoded) .errFormat
      pure decoded

/-- `reader_expect_uint`. -/
def readerExpectUint (expected : UInt64) : Reader PvStatus Unit := do
  let value ← readerValue 0
  Reader.require (value == expected) .errFormat

/-- `reader_count`. -/
def readerCount (major : UInt8) (maximum : Nat) : Reader PvStatus Nat := do
  let value ← readerValue major
  Reader.require (decide (value.toNat ≤ maximum)) .errLimit
  pure value.toNat

/-- `reader_slice`: text is checked to be UTF-8. -/
def readerSlice (major : UInt8) (maximum : Nat) : Reader PvStatus Bytes := do
  let length ← readerValue major
  Reader.require (decide (length.toNat ≤ maximum)) .errLimit
  let data ← readerBytes length.toNat
  Reader.require (!(major == 3 && !pvUtf8Valid data)) .errFormat
  pure data

/-! ## The errors of the readers -/

/-- A reader fails with `PV_ERR_FORMAT` or `PV_ERR_LIMIT`, in particular never with `PV_OK`. -/
def ReadError (status : PvStatus) : Prop := status = .errFormat ∨ status = .errLimit

theorem ReadError.ne_ok {status : PvStatus} (h : ReadError status) : status ≠ .ok := by
  rcases h with rfl | rfl
  · decide
  · decide

theorem fails_readerTake : Reader.Fails readerTake ReadError := by
  intro inp e h
  rcases inp with _ | ⟨b, rest⟩
  · cases h
    exact .inl rfl
  · cases h

theorem fails_readerBytes (n : Nat) : Reader.Fails (readerBytes n) ReadError := by
  intro inp e h
  change (if n > inp.length then Except.error PvStatus.errFormat
    else Except.ok (inp.take n, inp.drop n)) = _ at h
  split_ifs at h
  cases h
  exact .inl rfl

theorem fails_readerValue (m : UInt8) : Reader.Fails (readerValue m) ReadError := by
  refine fails_readerTake.bind fun initial => (Reader.fails_require _ (.inl rfl)).bind fun _ => ?_
  dsimp only
  split_ifs
  · exact Reader.fails_pure _ _
  · rcases readerWidth (initial &&& 0x1f) with _ | width
    · intro inp e h
      cases h
      exact .inl rfl
    · refine (fails_readerBytes width).bind fun _ => ?_
      exact (Reader.fails_require _ (.inl rfl)).bind fun _ => Reader.fails_pure _ _

theorem fails_readerExpectUint (v : UInt64) : Reader.Fails (readerExpectUint v) ReadError :=
  (fails_readerValue 0).bind fun _ => Reader.fails_require _ (.inl rfl)

theorem fails_readerCount (m : UInt8) (maximum : Nat) :
    Reader.Fails (readerCount m maximum) ReadError :=
  (fails_readerValue m).bind fun _ => (Reader.fails_require _ (.inr rfl)).bind fun _ =>
    Reader.fails_pure _ _

theorem fails_readerSlice (m : UInt8) (maximum : Nat) :
    Reader.Fails (readerSlice m maximum) ReadError :=
  (fails_readerValue m).bind fun _ => (Reader.fails_require _ (.inr rfl)).bind fun _ =>
    (fails_readerBytes _).bind fun _ => (Reader.fails_require _ (.inl rfl)).bind fun _ =>
      Reader.fails_pure _ _

/-! ## The initial byte -/

section Initial

variable {m i : UInt8}

theorem toNat_initial (hm : m.toNat < 8) (hi : i.toNat < 32) :
    (m <<< 5 ||| i).toNat = m.toNat * 32 + i.toNat := by
  have hshift : (m <<< 5).toNat = m.toNat * 32 := by
    rw [UInt8.toNat_shiftLeft, Nat.shiftLeft_eq]
    exact Nat.mod_eq_of_lt (by show m.toNat * 2 ^ 5 < 2 ^ 8; omega)
  rw [UInt8.toNat_or, hshift]
  have := Nat.shiftLeft_add_eq_or_of_lt (i := 5) hi m.toNat
  rw [Nat.shiftLeft_eq] at this
  exact this.symm

theorem toNat_shiftRight_five (b : UInt8) : (b >>> 5).toNat = b.toNat / 32 := by
  rw [UInt8.toNat_shiftRight, Nat.shiftRight_eq_div_pow]
  rfl

theorem toNat_land_info (b : UInt8) : (b &&& 0x1f).toNat = b.toNat % 32 := by
  rw [UInt8.toNat_and]
  exact Nat.and_two_pow_sub_one_eq_mod b.toNat 5

theorem initial_major (hm : m.toNat < 8) (hi : i.toNat < 32) : (m <<< 5 ||| i) >>> 5 = m := by
  apply UInt8.toNat_inj.mp
  rw [toNat_shiftRight_five, toNat_initial hm hi]
  omega

theorem initial_info (hm : m.toNat < 8) (hi : i.toNat < 32) : (m <<< 5 ||| i) &&& 0x1f = i := by
  apply UInt8.toNat_inj.mp
  rw [toNat_land_info, toNat_initial hm hi]
  omega

theorem initial_split (b : UInt8) : b = (b >>> 5) <<< 5 ||| (b &&& 0x1f) := by
  have hb := b.toNat_lt
  have hmajor := toNat_shiftRight_five b
  have hinfo := toNat_land_info b
  apply UInt8.toNat_inj.mp
  rw [toNat_initial (by omega) (by omega)]
  omega

end Initial

/-! ## Heads are read back, and only heads are read -/

theorem bounds_toNat (v : UInt64) : (v < 24 ↔ v.toNat < 24) ∧ (v ≤ 0xff ↔ v.toNat ≤ 255) ∧
    (v ≤ 0xffff ↔ v.toNat ≤ 65535) ∧ (v ≤ 0xffffffff ↔ v.toNat ≤ 4294967295) :=
  ⟨UInt64.lt_iff_toNat_lt, UInt64.le_iff_toNat_le, UInt64.le_iff_toNat_le, UInt64.le_iff_toNat_le⟩

/-- The head of a value that is written with `w` bytes after the initial one. -/
theorem headBytes_of_width {m info : UInt8} {w : Nat} (hw : readerWidth info = some w)
    (hshort : overlong w v = false) (hlt : v.toNat < 256 ^ w) :
    headBytes m v = (m <<< 5 ||| info) :: beBytes w v.toNat := by
  obtain ⟨h24, h1, h2, h4⟩ := bounds_toNat v
  simp only [overlong, decide_eq_false_iff_not, h24, h1, h2, h4] at hshort
  simp only [headBytes, h24, h1, h2, h4]
  rw [readerWidth] at hw
  split_ifs at hw with i24 i25 i26 i27
  all_goals
    obtain rfl := Option.some.inj hw
    subst_vars
  · rw [if_neg (by omega), if_pos (by omega)]
  · rw [if_neg (by omega), if_neg (by omega), if_pos (by omega)]
  · rw [if_neg (by omega), if_neg (by omega), if_neg (by omega), if_pos (by omega)]
  · rw [if_neg (by omega), if_neg (by omega), if_neg (by omega), if_neg (by omega)]

/-- Every value is below 24 or has a width. -/
theorem exists_width (v : UInt64) (h : ¬v.toNat < 24) :
    ∃ info w, readerWidth info = some w ∧ overlong w v = false ∧ v.toNat < 256 ^ w ∧
      info.toNat < 32 ∧ ¬info < 24 := by
  have hv := v.toNat_lt
  obtain ⟨h24, h1, h2, h4⟩ := bounds_toNat v
  simp only [overlong, decide_eq_false_iff_not, h24, h1, h2, h4]
  by_cases c1 : v.toNat ≤ 255
  · exact ⟨24, 1, rfl, by omega, by omega, by decide, by decide⟩
  · by_cases c2 : v.toNat ≤ 65535
    · exact ⟨25, 2, rfl, by omega, by omega, by decide, by decide⟩
    · by_cases c4 : v.toNat ≤ 4294967295
      · exact ⟨26, 4, rfl, by omega, by omega, by decide, by decide⟩
      · exact ⟨27, 8, rfl, by omega, by omega, by decide, by decide⟩

theorem readsBack_readerTake (b : UInt8) : Reader.ReadsBack readerTake [b] b := fun _ => rfl

theorem readsBack_readerBytes (bs : Bytes) : Reader.ReadsBack (readerBytes bs.length) bs bs := by
  intro rest
  show (if bs.length > (bs ++ rest).length then _ else _) = _
  rw [if_neg (by simp), List.take_left, List.drop_left]

/-- **A written head is read back.** -/
theorem readsBack_readerValue {m : UInt8} (hm : m.toNat < 8) (v : UInt64) :
    Reader.ReadsBack (readerValue m) (headBytes m v) v := by
  by_cases hsmall : v.toNat < 24
  · -- the value is in the initial byte
    have hbyte : (UInt8.ofNat v.toNat).toNat = v.toNat := UInt8.toNat_ofNat_of_lt' (by
      show v.toNat < 256
      omega)
    have hinfo := initial_info hm (i := UInt8.ofNat v.toNat) (by omega)
    have hhead : headBytes m v = [m <<< 5 ||| UInt8.ofNat v.toNat] ++ ([] ++ []) := by
      rw [headBytes, if_pos (UInt64.lt_iff_toNat_lt.mpr hsmall)]
      rfl
    rw [hhead, readerValue]
    refine (readsBack_readerTake _).bind ((Reader.readsBack_require _ ?_).bind ?_)
    · rw [initial_major hm (by omega), beq_self_eq_true]
    · have hlt : UInt8.ofNat v.toNat < 24 := UInt8.lt_iff_toNat_lt.mpr (by rw [hbyte]; exact hsmall)
      rw [hinfo, if_pos hlt, hbyte, UInt64.ofNat_toNat]
      exact Reader.readsBack_pure v
  · obtain ⟨info, w, hw, hshort, hlt, hinfo32, hinfo⟩ := exists_width v hsmall
    have hhead : headBytes m v =
        [m <<< 5 ||| info] ++ ([] ++ (beBytes w v.toNat ++ ([] ++ []))) := by
      rw [headBytes_of_width hw hshort hlt]
      simp
    have hdecoded : UInt64.ofNat (beNat (beBytes w v.toNat)) = v := by
      rw [beNat_beBytes w hlt, UInt64.ofNat_toNat]
    have hbytes := readsBack_readerBytes (beBytes w v.toNat)
    rw [length_beBytes] at hbytes
    rw [hhead, readerValue]
    refine (readsBack_readerTake _).bind ((Reader.readsBack_require _ ?_).bind ?_)
    · rw [initial_major hm hinfo32, beq_self_eq_true]
    · rw [initial_info hm hinfo32, if_neg hinfo, hw]
      dsimp only
      refine hbytes.bind ((Reader.readsBack_require _ ?_).bind ?_)
      · rw [hdecoded, hshort]
        rfl
      · rw [hdecoded]
        exact Reader.readsBack_pure v

theorem readerTake_ok {b : UInt8} (h : readerTake.run inp = .ok (b, rest)) :
    inp = b :: rest := by
  rcases inp with _ | ⟨c, tail⟩
  · cases h
  · cases h
    rfl

theorem readerBytes_ok {bs : Bytes} (h : (readerBytes n).run inp = .ok (bs, rest)) :
    inp = bs ++ rest ∧ bs.length = n := by
  change (if n > inp.length then Except.error PvStatus.errFormat
    else Except.ok (inp.take n, inp.drop n)) = _ at h
  split_ifs at h with hlen
  obtain ⟨rfl, rfl⟩ := Prod.mk.inj (Except.ok.inj h)
  refine ⟨(List.take_append_drop n inp).symm, ?_⟩
  rw [List.length_take]
  omega

/-- **Only shortest heads are read.** -/
theorem canonical_readerValue (m : UInt8) :
    Reader.Canonical (readerValue m) (headBytes m) fun _ => True := by
  intro inp v rest hrun
  refine ⟨?_, trivial⟩
  obtain ⟨initial, mid, htake, hvalue⟩ := Reader.bind_ok hrun
  obtain rfl := readerTake_ok htake
  obtain ⟨hmajor, h⟩ := Reader.require_bind_ok hvalue
  have hm : initial >>> 5 = m := beq_iff_eq.mp hmajor
  have hsplit := initial_split initial
  rw [hm] at hsplit
  dsimp only at h
  split_ifs at h with hinfo
  · -- the value is the additional information of the initial byte
    obtain ⟨rfl, rfl⟩ := Reader.pure_ok h
    have hlt : (initial &&& 0x1f).toNat < 24 := UInt8.lt_iff_toNat_lt.mp hinfo
    have hval : (UInt64.ofNat (initial &&& 0x1f).toNat).toNat = (initial &&& 0x1f).toNat :=
      UInt64.toNat_ofNat_of_lt' (by show _ < 2 ^ 64; omega)
    rw [headBytes, if_pos (UInt64.lt_iff_toNat_lt.mpr (by rw [hval]; exact hlt)), hval,
      UInt8.ofNat_toNat, ← hsplit]
    rfl
  · rcases hwidth : readerWidth (initial &&& 0x1f) with _ | w
    · rw [hwidth] at h
      cases h
    · rw [hwidth] at h
      dsimp only at h
      obtain ⟨bytes, _, hbytes, hcheck⟩ := Reader.bind_ok h
      obtain ⟨rfl, hlen⟩ := readerBytes_ok hbytes
      obtain ⟨_, _, hreq', hpure⟩ := Reader.bind_ok hcheck
      obtain ⟨hshort, rfl⟩ := Reader.require_ok hreq'
      obtain ⟨rfl, rfl⟩ := Reader.pure_ok hpure
      have hlt : beNat bytes < 256 ^ w := by
        rw [← hlen]
        exact beNat_lt bytes
      have hwle : w ≤ 8 := by
        rw [readerWidth] at hwidth
        split_ifs at hwidth <;> cases hwidth <;> decide
      have hpow : 256 ^ w ≤ 256 ^ 8 := Nat.pow_le_pow_right (by omega) hwle
      have hval : (UInt64.ofNat (beNat bytes)).toNat = beNat bytes :=
        UInt64.toNat_ofNat_of_lt' (by show _ < 2 ^ 64; omega)
      rw [headBytes_of_width hwidth (by simpa using hshort) (by rw [hval]; exact hlt), hval,
        ← hsplit, ← hlen, beBytes_beNat]
      rfl

/-! ## Tokens -/

theorem readsBack_head {m : UInt8} (hm : m.toNat < 8) (v : UInt64) :
    Reader.ReadsBack (readerValue m) (CborToken.head m v).bytes v :=
  readsBack_readerValue hm v

theorem readsBack_expectUint (v : UInt64) :
    Reader.ReadsBack (readerExpectUint v) (CborToken.head 0 v).bytes () := by
  rw [← List.append_nil (CborToken.head 0 v).bytes]
  exact (readsBack_head (by decide) v).bind (Reader.readsBack_require _ (beq_self_eq_true v))

theorem readsBack_count {m : UInt8} (hm : m.toNat < 8) (hn : n ≤ maximum) (hlt : n < UInt64.size) :
    Reader.ReadsBack (readerCount m maximum) (CborToken.head m (UInt64.ofNat n)).bytes n := by
  have hval : (UInt64.ofNat n).toNat = n := UInt64.toNat_ofNat_of_lt' hlt
  have hseq : Reader.ReadsBack (readerCount m maximum)
      ((CborToken.head m (UInt64.ofNat n)).bytes ++ ([] ++ [])) (UInt64.ofNat n).toNat :=
    (readsBack_head hm _).bind ((Reader.readsBack_require _ (by rw [hval]; exact decide_eq_true hn)).bind
      (Reader.readsBack_pure _))
  rwa [List.append_nil, List.append_nil, hval] at hseq

theorem readsBack_slice {m : UInt8} {data : Bytes} (hm : m.toNat < 8)
    (hlen : data.length ≤ maximum) (hlt : data.length < UInt64.size)
    (htext : m = 3 → pvUtf8Valid data = true) :
    Reader.ReadsBack (readerSlice m maximum) (CborToken.blob m data).bytes data := by
  have hval : (UInt64.ofNat data.length).toNat = data.length := UInt64.toNat_ofNat_of_lt' hlt
  have hutf8 : (!(m == 3 && !pvUtf8Valid data)) = true := by
    by_cases h3 : m = 3
    · rw [htext h3]
      simp
    · simp [h3]
  have hdata : Reader.ReadsBack (readerBytes (UInt64.ofNat data.length).toNat) data data := by
    rw [hval]
    exact readsBack_readerBytes data
  have hseq : Reader.ReadsBack (readerSlice m maximum)
      (headBytes m (UInt64.ofNat data.length) ++ ([] ++ (data ++ ([] ++ [])))) data :=
    (readsBack_readerValue hm _).bind
      ((Reader.readsBack_require _ (by rw [hval]; exact decide_eq_true hlen)).bind
        (hdata.bind ((Reader.readsBack_require _ hutf8).bind (Reader.readsBack_pure _))))
  rwa [List.nil_append, List.nil_append, List.append_nil] at hseq

theorem expectUint_ok {u : Unit} (h : (readerExpectUint v).run inp = .ok (u, rest)) :
    inp = (CborToken.head 0 v).bytes ++ rest := by
  obtain ⟨w, mid, hvalue, hreq⟩ := Reader.bind_ok h
  obtain ⟨rfl, -⟩ := canonical_readerValue 0 _ _ _ hvalue
  obtain ⟨heq, rfl⟩ := Reader.require_ok hreq
  rw [beq_iff_eq.mp heq]
  rfl

theorem expectUint_bind_ok {f : Unit → Reader PvStatus α} {y : α}
    (h : (readerExpectUint v >>= f).run inp = .ok (y, rest)) :
    ∃ mid, inp = (CborToken.head 0 v).bytes ++ mid ∧ (f ()).run mid = .ok (y, rest) := by
  obtain ⟨_, mid, hkey, hrest⟩ := Reader.bind_ok h
  exact ⟨mid, expectUint_ok hkey, hrest⟩

theorem value_ok {m : UInt8} (h : (readerValue m).run inp = .ok (v, rest)) :
    inp = (CborToken.head m v).bytes ++ rest :=
  (canonical_readerValue m _ _ _ h).1

theorem count_ok {m : UInt8} (h : (readerCount m maximum).run inp = .ok (n, rest)) :
    inp = (CborToken.head m (UInt64.ofNat n)).bytes ++ rest ∧ n ≤ maximum ∧ n < UInt64.size := by
  obtain ⟨v, mid, hvalue, hcheck⟩ := Reader.bind_ok h
  obtain ⟨hle, hpure⟩ := Reader.require_bind_ok hcheck
  obtain ⟨rfl, rfl⟩ := Reader.pure_ok hpure
  refine ⟨?_, of_decide_eq_true hle, v.toNat_lt⟩
  rw [UInt64.ofNat_toNat]
  exact value_ok hvalue

theorem slice_ok {m : UInt8} {data : Bytes}
    (h : (readerSlice m maximum).run inp = .ok (data, rest)) :
    inp = (CborToken.blob m data).bytes ++ rest ∧ data.length ≤ maximum ∧
      (m = 3 → pvUtf8Valid data = true) := by
  obtain ⟨v, mid, hvalue, hrest⟩ := Reader.bind_ok h
  obtain ⟨hle, hread⟩ := Reader.require_bind_ok hrest
  obtain ⟨bytes, mid', hbytes, hcheck⟩ := Reader.bind_ok hread
  obtain ⟨hmid, hlen⟩ := readerBytes_ok hbytes
  obtain ⟨htext, hpure⟩ := Reader.require_bind_ok hcheck
  obtain ⟨rfl, rfl⟩ := Reader.pure_ok hpure
  refine ⟨?_, by rw [hlen]; exact of_decide_eq_true hle, ?_⟩
  · have hblob : (CborToken.blob m data).bytes = headBytes m v ++ data := by
      rw [CborToken.bytes, hlen, UInt64.ofNat_toNat]
    rw [value_ok hvalue, hmid, hblob, List.append_assoc]
    rfl
  · rintro rfl
    simpa using htext

end PVault
