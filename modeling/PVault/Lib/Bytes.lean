import Mathlib.Data.List.Basic
import Mathlib.Data.List.Induction
import Mathlib.Data.List.TakeWhile
import Mathlib.Data.Nat.Bitwise
import Mathlib.Tactic.Ring

/-!
# Byte strings, fixed-size blocks and little- or big-endian numbers

The byte-level vocabulary of a binary format:

* `Bytes` and `Block n` — byte strings, and byte arrays whose size is part of
  their type, so that a block of the wrong size cannot be built.
* `slice` / `splice` — reading and overwriting a region of a buffer. The two
  facts every layout argument needs are `slice_splice_self` and
  `slice_splice_disjoint`; a layout that writes its fields one after the other
  is a concatenation (`take_splice`).
* `leNat` / `leBytes` and `beNat` / `beBytes` — fixed-width numbers, in both
  byte orders, with the loops a C program writes for them.
-/

namespace Binary

/-- A byte string. -/
abbrev Bytes : Type := List UInt8

variable {bs src : Bytes} {off len : Nat} {ws : List (Nat × Bytes)}

/-- A byte array of `n` bytes. -/
@[ext] structure Block (n : Nat) where
  /-- the bytes of the array -/
  bytes : Bytes
  /-- there are `n` of them -/
  length_eq : bytes.length = n
  deriving DecidableEq

namespace Block

variable {n : Nat}

@[simp] theorem length_bytes (b : Block n) : b.bytes.length = n := b.length_eq

/-- The all-zero array. -/
def zero (n : Nat) : Block n := ⟨List.replicate n 0, List.length_replicate ..⟩

/-- The first `n` bytes of a byte string, padded with zeroes when it is shorter. -/
def ofBytes (n : Nat) (bs : Bytes) : Block n :=
  ⟨bs.take n ++ List.replicate (n - bs.length) 0, by simp; omega⟩

theorem ofBytes_bytes (b : Block n) : ofBytes n b.bytes = b := by
  ext1
  simp [ofBytes, List.take_of_length_le]

theorem bytes_ofBytes {bs : Bytes} (h : bs.length = n) : (ofBytes n bs).bytes = bs := by
  simp [ofBytes, h, List.take_of_length_le]

end Block

/-! ## Zero tests -/

/-- The zero test of a byte string: all its bytes are or-ed together. -/
def bytesAllZero (bs : Bytes) : Bool := bs.foldl (· ||| ·) 0 == 0

/-- What C functions see of a buffer: the bytes up to the first NUL. -/
def cString (bs : Bytes) : Bytes := bs.takeWhile (· ≠ 0)

theorem cString_eq (h : 0 ∉ bs) : cString bs = bs :=
  List.takeWhile_eq_self_iff.mpr fun _ hb => decide_eq_true fun h0 => h (h0 ▸ hb)

theorem cString_isPrefix (bs : Bytes) : cString bs <+: bs := List.takeWhile_prefix _

theorem or_eq_zero {a b : UInt8} : a ||| b = 0 ↔ a = 0 ∧ b = 0 := by
  constructor
  · intro h
    have hn : a.toNat ||| b.toNat = 0 := by
      have := congrArg UInt8.toNat h
      simpa using this
    have ha : a.toNat = 0 := by
      have := Nat.left_le_or (n := a.toNat) (m := b.toNat)
      omega
    have hb : b.toNat = 0 := by
      have := Nat.right_le_or (n := a.toNat) (m := b.toNat)
      omega
    exact ⟨UInt8.toNat_inj.mp ha, UInt8.toNat_inj.mp hb⟩
  · rintro ⟨rfl, rfl⟩
    rfl

theorem foldl_or_eq_zero (bs : Bytes) :
    ∀ a : UInt8, bs.foldl (· ||| ·) a = 0 ↔ a = 0 ∧ ∀ b ∈ bs, b = 0 := by
  induction bs with
  | nil => intro a; simp
  | cons b rest ih =>
    intro a
    rw [List.foldl_cons, ih, or_eq_zero]
    simp [and_assoc]

theorem bytesAllZero_iff : bytesAllZero bs = true ↔ ∀ b ∈ bs, b = 0 := by
  rw [bytesAllZero, beq_iff_eq, foldl_or_eq_zero]
  simp

theorem Block.allZero_iff {n : Nat} {b : Block n} :
    bytesAllZero b.bytes = true ↔ b = Block.zero n := by
  rw [bytesAllZero_iff]
  constructor
  · intro h
    ext1
    rw [zero, List.eq_replicate_iff]
    exact ⟨b.length_eq, h⟩
  · rintro rfl c hc
    exact List.eq_of_mem_replicate hc

/-! ## Regions of a buffer -/

/-- The `len` bytes of a buffer from offset `off` on. -/
def slice (bs : Bytes) (off len : Nat) : Bytes := (bs.drop off).take len

/-- A buffer with `src` copied over it at offset `off`. -/
def splice (bs : Bytes) (off : Nat) (src : Bytes) : Bytes :=
  bs.take off ++ src ++ bs.drop (off + src.length)

theorem length_slice (h : off + len ≤ bs.length) :
    (slice bs off len).length = len := by
  simp only [slice, List.length_take, List.length_drop]
  omega

@[simp] theorem length_splice (h : off + src.length ≤ bs.length) :
    (splice bs off src).length = bs.length := by
  simp only [splice, List.length_append, List.length_take, List.length_drop]
  omega

theorem length_slice_le (bs : Bytes) (off len : Nat) : (slice bs off len).length ≤ len :=
  List.length_take_le _ _

@[simp] theorem slice_zero (bs : Bytes) (off : Nat) : slice bs off 0 = [] := by simp [slice]

@[simp] theorem splice_nil (bs : Bytes) (off : Nat) : splice bs off [] = bs := by simp [splice]

theorem slice_full (bs : Bytes) : slice bs 0 bs.length = bs := by simp [slice]

/-- Two adjacent regions are one. -/
theorem slice_append_slice (bs : Bytes) (off a b : Nat) :
    slice bs off a ++ slice bs (off + a) b = slice bs off (a + b) := by
  rw [slice, slice, slice, ← List.drop_drop, List.take_add]

theorem slice_append_left {xs ys : Bytes} (h : off + len ≤ xs.length) :
    slice (xs ++ ys) off len = slice xs off len := by
  rw [slice, slice, List.drop_append_of_le_length (by omega),
    List.take_append_of_le_length (by rw [List.length_drop]; omega)]

theorem slice_append_right {xs ys : Bytes} (h : off = xs.length) (hlen : len = ys.length) :
    slice (xs ++ ys) off len = ys := by
  subst h hlen
  rw [slice, List.drop_left, List.take_length]

theorem getElem?_slice (bs : Bytes) (off len i : Nat) :
    (slice bs off len)[i]? = if i < len then bs[off + i]? else none := by
  rw [slice, List.getElem?_take, List.getElem?_drop]

theorem getElem?_splice (h : off + src.length ≤ bs.length) (i : Nat) :
    (splice bs off src)[i]? =
      if i < off then bs[i]? else if i < off + src.length then src[i - off]? else bs[i]? := by
  have htake : (bs.take off).length = off := by simp; omega
  rw [splice, List.append_assoc]
  by_cases hi : i < off
  · rw [if_pos hi, List.getElem?_append_left (by omega), List.getElem?_take, if_pos hi]
  · rw [if_neg hi, List.getElem?_append_right (by omega), htake]
    by_cases hi' : i < off + src.length
    · rw [if_pos hi', List.getElem?_append_left (by omega)]
    · rw [if_neg hi', List.getElem?_append_right (by omega), List.getElem?_drop]
      congr 1
      omega

/-- A copied region reads back. -/
theorem slice_splice_self (h : off + src.length ≤ bs.length) :
    slice (splice bs off src) off src.length = src := by
  apply List.ext_getElem?
  intro i
  rw [getElem?_slice, getElem?_splice h]
  by_cases hi : i < src.length
  · rw [if_pos hi, if_neg (by omega), if_pos (by omega)]
    congr 1
    omega
  · rw [if_neg hi, List.getElem?_eq_none (by omega)]

/-- A copy leaves every region it does not meet alone. -/
theorem slice_splice_disjoint (h : off + src.length ≤ bs.length) {o l : Nat}
    (hd : o + l ≤ off ∨ off + src.length ≤ o) :
    slice (splice bs off src) o l = slice bs o l := by
  apply List.ext_getElem?
  intro i
  rw [getElem?_slice, getElem?_slice, getElem?_splice h]
  by_cases hi : i < l
  · rw [if_pos hi, if_pos hi]
    rcases hd with hd | hd
    · rw [if_pos (by omega)]
    · rw [if_neg (by omega), if_neg (by omega)]
  · rw [if_neg hi, if_neg hi]

/-- A copy extends the part of the buffer that is already filled in. -/
theorem take_splice (h : off + src.length ≤ bs.length) :
    (splice bs off src).take (off + src.length) = bs.take off ++ src := by
  have hlen : (bs.take off ++ src).length = off + src.length := by simp; omega
  rw [splice, ← hlen, List.take_left']
  rfl

/-- Two copies one after the other are one copy. -/
theorem splice_splice {next : Bytes} (h : off + src.length ≤ bs.length) :
    splice (splice bs off src) (off + src.length) next = splice bs off (src ++ next) := by
  have hlen : (bs.take off ++ src).length = off + src.length := by simp; omega
  have hdrop : (splice bs off src).drop (off + src.length) = bs.drop (off + src.length) := by
    rw [splice, ← hlen, List.drop_left]
  rw [splice, take_splice h, ← List.drop_drop, hdrop, List.drop_drop, splice, List.length_append,
    Nat.add_assoc, List.append_assoc (bs.take off)]

/-- An array with `src` copied over it at offset `off`; a copy that does not fit is not
made. -/
def Block.overwrite {n : Nat} (b : Block n) (off : Nat) (src : Bytes) : Block n :=
  if h : off + src.length ≤ n then
    ⟨splice b.bytes off src, by rw [length_splice (by rw [b.length_eq]; exact h), b.length_eq]⟩
  else b

theorem Block.bytes_overwrite {n : Nat} {b : Block n} (h : off + src.length ≤ n) :
    (b.overwrite off src).bytes = splice b.bytes off src := by
  rw [overwrite, dif_pos h]

/-- Copying nothing does nothing. -/
theorem Block.overwrite_nil {n : Nat} (b : Block n) (off : Nat) : b.overwrite off [] = b := by
  rw [overwrite]
  split_ifs
  · apply Block.ext
    show splice b.bytes off [] = b.bytes
    simp [splice]
  · rfl

/-- A copied prefix reads back. -/
theorem Block.slice_overwrite_prefix {n : Nat} (b : Block n) {tail : Bytes}
    (h : off + (src ++ tail).length ≤ n) :
    slice (b.overwrite off (src ++ tail)).bytes off src.length = src := by
  have hself : slice (splice b.bytes off (src ++ tail)) off (src ++ tail).length = src ++ tail :=
    slice_splice_self (by rw [b.length_eq]; exact h)
  have hmin : min src.length (src ++ tail).length = src.length := by simp
  calc slice (b.overwrite off (src ++ tail)).bytes off src.length
      = (slice (splice b.bytes off (src ++ tail)) off (src ++ tail).length).take src.length := by
        rw [bytes_overwrite h, slice, slice, List.take_take, hmin]
    _ = src := by rw [hself, List.take_left]

/-- A copy leaves every region it does not meet alone. -/
theorem Block.slice_overwrite_disjoint {n : Nat} (b : Block n) (src : Bytes) {o l : Nat}
    (hd : o + l ≤ off ∨ off + src.length ≤ o) :
    slice (b.overwrite off src).bytes o l = slice b.bytes o l := by
  rw [overwrite]
  by_cases h : off + src.length ≤ n
  · rw [dif_pos h]
    exact slice_splice_disjoint (by rw [b.length_eq]; exact h) hd
  · rw [dif_neg h]

/-! ## Buffers written field by field

A format that copies its fields to hand-written offsets is a list of
`(offset, bytes)` writes. When the writes tile a region, the order of the copies
and what the buffer held before do not matter: the region is the concatenation of
the fields, and every field reads back at its own offset. -/

/-- Perform the writes of a field list, in order. -/
def writeFields (ws : List (Nat × Bytes)) (bs : Bytes) : Bytes :=
  ws.foldl (fun out w => splice out w.1 w.2) bs

/-- The writes start at `off`, follow each other without gap or overlap, and end
at `stop`. -/
def Tiles (off : Nat) : List (Nat × Bytes) → Nat → Prop
  | [], stop => off = stop
  | w :: ws, stop => w.1 = off ∧ Tiles (off + w.2.length) ws stop

/-- The bytes of a field list, one field after the other. -/
def fieldBytes (ws : List (Nat × Bytes)) : Bytes := (ws.map Prod.snd).flatten

theorem Tiles.length :
    ∀ {off stop : Nat}, Tiles off ws stop → off + (fieldBytes ws).length = stop := by
  induction ws with
  | nil => intro off stop h; simpa [fieldBytes, Tiles] using h
  | cons w ws ih =>
    intro off stop h
    have := ih h.2
    simp only [fieldBytes, List.map_cons, List.flatten_cons, List.length_append] at this ⊢
    omega

theorem length_writeFields :
    ∀ {off stop : Nat} (bs : Bytes), Tiles off ws stop → stop ≤ bs.length →
      (writeFields ws bs).length = bs.length := by
  induction ws with
  | nil => intro off stop bs _ _; rfl
  | cons w ws ih =>
    intro off stop bs h hstop
    obtain ⟨hoff, htail⟩ := h
    have hlen := htail.length
    have hw : (splice bs w.1 w.2).length = bs.length := length_splice (by omega)
    have := ih (splice bs w.1 w.2) htail (by omega)
    rw [writeFields, List.foldl_cons]
    exact this.trans hw

/-- Tiling writes turn the region they cover into the concatenation of the
fields, whatever the buffer held. -/
theorem take_writeFields :
    ∀ {off stop : Nat} (bs : Bytes), Tiles off ws stop → stop ≤ bs.length →
      (writeFields ws bs).take stop = bs.take off ++ fieldBytes ws := by
  induction ws with
  | nil =>
    intro off stop bs h _
    have : off = stop := h
    simp [writeFields, fieldBytes, this]
  | cons w ws ih =>
    intro off stop bs h hstop
    obtain ⟨hoff, htail⟩ := h
    have hlen := htail.length
    have hw : (splice bs w.1 w.2).length = bs.length := length_splice (by omega)
    have := ih (splice bs w.1 w.2) htail (by omega)
    rw [writeFields, List.foldl_cons]
    refine this.trans ?_
    rw [← hoff, take_splice (by omega)]
    simp [fieldBytes]

/-- A whole buffer written by tiling fields is their concatenation. -/
theorem writeFields_eq (h : Tiles 0 ws bs.length) :
    writeFields ws bs = fieldBytes ws := by
  have htake := take_writeFields bs h (le_refl _)
  rwa [List.take_of_length_le (by rw [length_writeFields bs h (le_refl _)]), List.take_zero,
    List.nil_append] at htake

/-- The bytes of the first fields of a layout. -/
theorem take_fieldBytes {i stop : Nat} (h : Tiles 0 (ws.take i) stop) :
    (fieldBytes ws).take stop = fieldBytes (ws.take i) := by
  have hsplit : fieldBytes ws = fieldBytes (ws.take i) ++ fieldBytes (ws.drop i) := by
    rw [fieldBytes, fieldBytes, fieldBytes, ← List.flatten_append, ← List.map_append,
      List.take_append_drop]
  have hlen := h.length
  rw [Nat.zero_add] at hlen
  rw [hsplit, List.take_left' hlen]

/-- The bytes of a run of fields in the middle of a layout. -/
theorem slice_fieldBytes_run {i j stop : Nat} (hpre : Tiles 0 (ws.take i) off)
    (hrun : Tiles off ((ws.drop i).take j) stop) :
    slice (fieldBytes ws) off (stop - off) = fieldBytes ((ws.drop i).take j) := by
  have hsplit : fieldBytes ws =
      fieldBytes (ws.take i) ++ (fieldBytes ((ws.drop i).take j) ++ fieldBytes ((ws.drop i).drop j)) := by
    simp only [fieldBytes]
    rw [← List.flatten_append, ← List.flatten_append, ← List.map_append, ← List.map_append,
      List.take_append_drop, List.take_append_drop]
  have hlen := hpre.length
  have hrunLen := hrun.length
  rw [Nat.zero_add] at hlen
  rw [hsplit, slice, List.drop_left' hlen, List.take_left' (by omega)]

/-- Every field of a tiling reads back at its own offset. -/
theorem slice_fieldBytes :
    ∀ {off stop : Nat} (pre : Bytes) {w : Nat × Bytes}, Tiles off ws stop → pre.length = off →
      w ∈ ws → slice (pre ++ fieldBytes ws) w.1 w.2.length = w.2 := by
  induction ws with
  | nil => intro off stop pre w _ _ hw; cases hw
  | cons v ws ih =>
    intro off stop pre w h hpre hw
    obtain ⟨hoff, htail⟩ := h
    have hsplit : pre ++ fieldBytes (v :: ws) = (pre ++ v.2) ++ fieldBytes ws := by
      simp [fieldBytes]
    rcases List.mem_cons.mp hw with rfl | hw
    · rw [hsplit, slice, hoff, ← hpre, List.append_assoc, List.drop_left', List.take_left']
      · rfl
      · rfl
    · rw [hsplit]
      exact ih (pre ++ v.2) htail (by rw [List.length_append, hpre]) hw

/-- Fields cut out of a buffer by a tiling join up to the region they tile. -/
theorem fieldBytes_slices (bs : Bytes) :
    ∀ {off stop : Nat}, Tiles off ws stop → (∀ w ∈ ws, w.2 = slice bs w.1 w.2.length) →
      fieldBytes ws = slice bs off (stop - off) := by
  induction ws with
  | nil =>
    intro off stop h _
    have : off = stop := h
    simp [fieldBytes, this]
  | cons w ws ih =>
    intro off stop h hws
    obtain ⟨hoff, htail⟩ := h
    have hlen := htail.length
    have hhead := hws w (List.mem_cons_self ..)
    have hrest := ih htail fun v hv => hws v (List.mem_cons_of_mem _ hv)
    rw [hoff] at hhead
    calc fieldBytes (w :: ws) = w.2 ++ fieldBytes ws := by simp [fieldBytes]
      _ = slice bs off w.2.length ++ slice bs (off + w.2.length) (stop - (off + w.2.length)) := by
        rw [hrest, ← hhead]
      _ = slice bs off (stop - off) := by
        rw [slice_append_slice]
        congr 1
        omega

/-! ## Little-endian numbers -/

/-- The number a byte string spells, least significant byte first. -/
def leNat : Bytes → Nat
  | [] => 0
  | b :: rest => b.toNat + 256 * leNat rest

/-- The `w` bytes of a number, least significant first: byte `i` is the number
shifted right by `8 i` bits and cut to a byte. -/
def leBytes (w n : Nat) : Bytes := (List.range w).map fun i => UInt8.ofNat (n >>> (i * 8))

/-- The loop that or-s every byte into its place. -/
def orShifted (bs : Bytes) : Nat :=
  (List.range bs.length).foldl (fun value i => value ||| (bs.getD i 0).toNat <<< (i * 8)) 0

@[simp] theorem length_leBytes (w n : Nat) : (leBytes w n).length = w := by simp [leBytes]

theorem leBytes_succ (w n : Nat) :
    leBytes (w + 1) n = UInt8.ofNat n :: leBytes w (n / 256) := by
  rw [leBytes, List.range_succ_eq_map, List.map_cons, List.map_map, leBytes]
  congr 1
  apply List.map_congr_left
  intro i _
  have hshift : n >>> ((i + 1) * 8) = (n / 256) >>> (i * 8) := by
    rw [show (i + 1) * 8 = 8 + i * 8 by ring, Nat.shiftRight_add, Nat.shiftRight_eq_div_pow n 8]
  simp only [Function.comp_apply, Nat.succ_eq_add_one, hshift]

theorem leNat_lt (bs : Bytes) : leNat bs < 256 ^ bs.length := by
  induction bs with
  | nil => simp [leNat]
  | cons b rest ih =>
    have hb := b.toNat_lt
    rw [leNat, List.length_cons, pow_succ]
    omega

theorem leNat_leBytes (w : Nat) : ∀ {n : Nat}, n < 256 ^ w → leNat (leBytes w n) = n := by
  induction w with
  | zero =>
    intro n hn
    simp [leBytes, leNat] at hn ⊢
    exact hn.symm
  | succ w ih =>
    intro n hn
    rw [leBytes_succ, leNat, ih (Nat.div_lt_of_lt_mul (by rw [pow_succ'] at hn; exact hn))]
    simp only [UInt8.toNat_ofNat']
    omega

theorem leBytes_leNat (bs : Bytes) : leBytes bs.length (leNat bs) = bs := by
  induction bs with
  | nil => rfl
  | cons b rest ih =>
    have hb := b.toNat_lt
    rw [List.length_cons, leBytes_succ, leNat]
    have hquot : (b.toNat + 256 * leNat rest) / 256 = leNat rest := by omega
    have hbyte : UInt8.ofNat (b.toNat + 256 * leNat rest) = b := by
      apply UInt8.toNat_inj.mp
      simp only [UInt8.toNat_ofNat']
      omega
    rw [hquot, hbyte, ih]

theorem leNat_append (xs ys : Bytes) :
    leNat (xs ++ ys) = leNat xs + 256 ^ xs.length * leNat ys := by
  induction xs with
  | nil => simp [leNat]
  | cons x rest ih =>
    rw [List.cons_append, leNat, leNat, ih, List.length_cons, pow_succ]
    ring

/-- The or-loop computes the little-endian number: at every turn the bytes
already merged lie below the byte being merged. -/
theorem orShifted_eq_leNat (bs : Bytes) : orShifted bs = leNat bs := by
  induction bs using List.reverseRecOn with
  | nil => rfl
  | append_singleton xs b ih =>
    have hinit : (List.range xs.length).foldl
        (fun value i => value ||| ((xs ++ [b]).getD i 0).toNat <<< (i * 8)) 0 = orShifted xs := by
      rw [orShifted]
      apply List.foldl_ext
      intro value i hi
      have hi' : i < xs.length := List.mem_range.mp hi
      simp [List.getElem?_append_left hi']
    have hlt : leNat xs < 2 ^ (xs.length * 8) := by
      have := leNat_lt xs
      rwa [show (256 : Nat) = 2 ^ 8 by rfl, ← pow_mul, Nat.mul_comm] at this
    rw [orShifted, List.length_append, List.length_singleton, List.range_succ, List.foldl_append,
      hinit, ih]
    simp only [List.foldl_cons, List.foldl_nil, List.getD_eq_getElem?_getD,
      List.getElem?_concat_length, Option.getD_some]
    rw [leNat_append, Nat.or_comm, ← Nat.shiftLeft_add_eq_or_of_lt hlt, Nat.shiftLeft_eq, pow_mul']
    simp [leNat]
    ring

/-! ## Big-endian numbers -/

/-- The number a byte string spells, most significant byte first: the loop
that shifts what it has by a byte and or-s the next byte in. -/
def beNat (bs : Bytes) : Nat := bs.foldl (fun value b => value <<< 8 ||| b.toNat) 0

/-- The `w` bytes of a number, most significant first. -/
def beBytes (w n : Nat) : Bytes :=
  (List.range w).map fun i => UInt8.ofNat (n >>> ((w - 1 - i) * 8))

@[simp] theorem length_beBytes (w n : Nat) : (beBytes w n).length = w := by simp [beBytes]

theorem beNat_append_singleton (xs : Bytes) (b : UInt8) :
    beNat (xs ++ [b]) = beNat xs * 256 + b.toNat := by
  have hb : b.toNat < 2 ^ 8 := b.toNat_lt
  rw [beNat, List.foldl_append, List.foldl_cons, List.foldl_nil,
    ← Nat.shiftLeft_add_eq_or_of_lt hb, Nat.shiftLeft_eq]
  rfl

theorem beBytes_succ (w n : Nat) :
    beBytes (w + 1) n = beBytes w (n / 256) ++ [UInt8.ofNat n] := by
  rw [beBytes, List.range_succ, List.map_append, beBytes]
  congr 1
  · apply List.map_congr_left
    intro i hi
    have hi' : i < w := List.mem_range.mp hi
    have hshift : n >>> ((w + 1 - 1 - i) * 8) = (n / 256) >>> ((w - 1 - i) * 8) := by
      rw [show (w + 1 - 1 - i) * 8 = 8 + (w - 1 - i) * 8 by omega, Nat.shiftRight_add,
        Nat.shiftRight_eq_div_pow n 8]
    rw [hshift]
  · simp

theorem beNat_lt (bs : Bytes) : beNat bs < 256 ^ bs.length := by
  induction bs using List.reverseRecOn with
  | nil => simp [beNat]
  | append_singleton xs b ih =>
    have hb := b.toNat_lt
    rw [beNat_append_singleton, List.length_append, List.length_singleton, pow_succ]
    omega

theorem beNat_beBytes (w : Nat) : ∀ {n : Nat}, n < 256 ^ w → beNat (beBytes w n) = n := by
  induction w with
  | zero =>
    intro n hn
    simp [beBytes, beNat] at hn ⊢
    exact hn.symm
  | succ w ih =>
    intro n hn
    rw [beBytes_succ, beNat_append_singleton,
      ih (Nat.div_lt_of_lt_mul (by rw [pow_succ'] at hn; exact hn))]
    simp only [UInt8.toNat_ofNat']
    omega

theorem beBytes_beNat (bs : Bytes) : beBytes bs.length (beNat bs) = bs := by
  induction bs using List.reverseRecOn with
  | nil => rfl
  | append_singleton xs b ih =>
    have hb := b.toNat_lt
    rw [List.length_append, List.length_singleton, beBytes_succ, beNat_append_singleton]
    have hquot : (beNat xs * 256 + b.toNat) / 256 = beNat xs := by omega
    have hbyte : UInt8.ofNat (beNat xs * 256 + b.toNat) = b := by
      apply UInt8.toNat_inj.mp
      simp only [UInt8.toNat_ofNat']
      omega
    rw [hquot, hbyte, ih]

/-! ## Pieces -/

/-- A text is its first piece and, behind a separator, the others. -/
theorem splitOn_cases (c : UInt8) (text : Bytes) : ∃ piece, text.takeWhile (· ≠ c) = piece ∧
    (text = piece ∧ text.splitOn c = [piece] ∨
      ∃ more, text = piece ++ c :: more ∧ text.splitOn c = piece :: more.splitOn c) := by
  by_cases hmem : c ∈ text
  · obtain ⟨piece, more, rfl, hfree⟩ := List.eq_append_cons_of_mem hmem
    have hall : ∀ x ∈ piece, decide (x ≠ c) = true := fun x hx =>
      decide_eq_true fun heq => hfree (heq ▸ hx)
    refine ⟨piece, ?_, .inr ⟨more, rfl, List.splitOn_append_cons_self_of_not_mem hfree more⟩⟩
    rw [List.takeWhile_append_of_pos hall, List.takeWhile_cons_of_neg (by simp), List.append_nil]
  · refine ⟨text, List.takeWhile_eq_self_iff.mpr fun x hx => ?_, .inl ⟨rfl, ?_⟩⟩
    · exact decide_eq_true fun heq => hmem (heq ▸ hx)
    · exact List.splitOn_eq_singleton hmem

end Binary
