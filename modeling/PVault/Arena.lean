import PVault.Lib.Bytes
import PVault.Lib.Bump
import PVault.Status

/-!
# The secret arena (`src/arena.c`)

All secrets of an open vault live in one locked region, filled by a bump allocator and
never freed piece by piece. A slice is an offset and a length in it.

`pvArenaAlloc_eq` says what the allocator computes: it places the request at the next
multiple of its alignment, or refuses. The copying functions built on it are described
by one judgement, `Fills x requests post`: on a writable arena `x` succeeds exactly when
placing `requests` ends within the capacity, it then moves the cursor there and returns a
result satisfying `post`; otherwise it fails with `PV_ERR_LIMIT`. In both cases the bytes
below the old cursor stay as they were (`Arena.Extends`). A loop that fills an array it was
handed writes below the cursor; `FillsBut lo hi` is the same judgement with a window for such
writes, and `fills_region` closes the window over a region that is new.
-/

namespace PVault

open Binary Bump

/-! ## The arena -/

/-- `pv_arena`, once initialised. -/
structure Arena where
  /-- bytes in the region -/
  capacity : Nat
  /-- the region itself -/
  base : Block capacity
  /-- the cursor: bytes handed out so far -/
  used : Nat
  /-- the region is write-protected -/
  readonly : Bool
  used_le : used ≤ capacity
  capacity_le : capacity ≤ pvMaxPlaintext

/-- `pv_slice` in the arena; the null slice is the empty one at offset zero. -/
structure Slice where
  off : Nat
  len : Nat
  deriving DecidableEq, Repr

/-- The slice `{ NULL, 0 }`. -/
def Slice.null : Slice := ⟨0, 0⟩

/-- The bytes a slice points to. -/
def Arena.deref (arena : Arena) (s : Slice) : Bytes := slice arena.base.bytes s.off s.len

/-- `pv_arena_init`. -/
def pvArenaInit (capacity : Nat) (mem : SecureAlloc) : Except PvStatus Arena :=
  if h : capacity = 0 ∨ capacity > pvMaxPlaintext then
    .error .errUsage
  else
    match mem with
    | .noMemory => .error .errNomem
    | .notLocked => .error .errSecureMemory
    | .allocated => .ok
      { capacity
        base := Block.zero _
        used := 0
        readonly := false
        used_le := Nat.zero_le _
        capacity_le := by omega }

/-- `pv_arena_alloc`: the offset of the new region, and the arena. -/
def pvArenaAlloc (arena : Arena) (size alignment : Nat) : Option (Nat × Arena) :=
  if arena.readonly ∨ size = 0 ∨ alignment = 0 ∨ alignment &&& (alignment - 1) ≠ 0 then
    none
  else
    match pvSizeAdd arena.used (alignment - 1) with
    | none => none
    | some sum =>
      let aligned := sum &&& (sizeMax - (alignment - 1))
      match pvSizeAdd aligned size with
      | none => none
      | some stop =>
        if h : stop ≤ arena.capacity then
          some (aligned, { arena with
            base := arena.base.overwrite aligned (List.replicate size 0)
            used := stop
            used_le := h })
        else
          none

/-- Computations on the arena. A failure leaves the arena as far as it got. -/
abbrev ArenaM : Type → Type := ExceptT PvStatus (StateM Arena)

/-- Allocate, or fail with `PV_ERR_LIMIT`. -/
def allocOrLimit (size alignment : Nat) : ArenaM Nat :=
  ExceptT.mk fun arena =>
    match pvArenaAlloc arena size alignment with
    | none => (.error .errLimit, arena)
    | some (off, arena) => (.ok off, arena)

/-- `memcpy` to a place in the arena. -/
def writeAt (off : Nat) (data : Bytes) : ArenaM Unit :=
  ExceptT.mk fun arena => (.ok (), { arena with base := arena.base.overwrite off data })

/-- `pv_arena_copy`: the bytes and a terminating zero. -/
def pvArenaCopy (data : Bytes) (maxLen : Nat) : ArenaM Slice :=
  if data.length > maxLen then throw .errLimit
  else if data.length = 0 then pure Slice.null
  else do
    let destination ← allocOrLimit (data.length + 1) 1
    writeAt destination (data ++ [0])
    pure ⟨destination, data.length⟩

/-- `sodium_memzero` over a slice. -/
def Arena.wipe (arena : Arena) (s : Slice) : Arena :=
  { arena with base := arena.base.overwrite s.off (List.replicate s.len 0) }

/-- `pv_arena_set_readonly`, with what `sodium_mprotect_readonly` answered. -/
def pvArenaSetReadonly (arena : Arena) (protect : Bool) : PvStatus × Arena :=
  if protect then (.ok, { arena with readonly := true }) else (.errSecureMemory, arena)

/-- `pv_arena_set_readwrite`, with what `sodium_mprotect_readwrite` answered. -/
def pvArenaSetReadwrite (arena : Arena) (protect : Bool) : PvStatus × Arena :=
  if protect then (.ok, { arena with readonly := false }) else (.errSecureMemory, arena)

/-! ## What the allocator computes -/

variable {size k lo hi : Nat} {a b : Arena} {data : Bytes} {α β : Type} {rs ss : List Request}
variable {lo' maxLen : Nat} {s : Slice} {P : α → Arena → Prop} {Q : α → β → Arena → Prop}
  {arena arena' : Arena}

theorem two_pow_land_pred (k : Nat) : 2 ^ k &&& (2 ^ k - 1) = 0 := by
  rw [Nat.and_two_pow_sub_one_eq_mod, Nat.mod_self]

/-- The allocator places a request at the next multiple of its alignment, zeroes the
region, and refuses what would end past the capacity. None of its `size_t` computations
can wrap on an accepted request. -/
theorem pvArenaAlloc_eq (arena : Arena) (hsize : size ≠ 0) (hk : k < 64)
    (hw : arena.readonly = false) :
    pvArenaAlloc arena size (2 ^ k) =
      if h : alignUp (2 ^ k) arena.used + size ≤ arena.capacity then
        some (alignUp (2 ^ k) arena.used, { arena with
          base := arena.base.overwrite (alignUp (2 ^ k) arena.used) (List.replicate size 0)
          used := alignUp (2 ^ k) arena.used + size
          used_le := h })
      else none := by
  have hpos : 0 < 2 ^ k := Nat.two_pow_pos k
  have hpow : 2 ^ k ≤ 2 ^ 63 := Nat.pow_le_pow_right (by omega) (by omega)
  have hused := arena.used_le
  have hcap := arena.capacity_le
  have hmax := pvMaxPlaintext_eq
  have hszmax := sizeMax_eq
  have hguard : ¬(arena.readonly ∨ size = 0 ∨ 2 ^ k = 0 ∨ 2 ^ k &&& (2 ^ k - 1) ≠ 0) := by
    rw [hw, two_pow_land_pred]
    simp only [Bool.false_eq_true, ne_eq, not_true_eq_false, or_false, false_or]
    omega
  have hadd : pvSizeAdd arena.used (2 ^ k - 1) = some (arena.used + (2 ^ k - 1)) :=
    (pvSizeAdd_eq_some (by omega)).mpr ⟨by omega, rfl⟩
  have hmask : (arena.used + (2 ^ k - 1)) &&& (sizeMax - (2 ^ k - 1)) = alignUp (2 ^ k) arena.used :=
    alignUp_eq_land (by omega) (by omega)
  have hlt := alignUp_lt hpos arena.used
  rw [pvArenaAlloc, if_neg hguard, hadd]
  dsimp only
  rw [hmask]
  by_cases hfit : alignUp (2 ^ k) arena.used + size ≤ arena.capacity
  · have hadd' : pvSizeAdd (alignUp (2 ^ k) arena.used) size =
        some (alignUp (2 ^ k) arena.used + size) :=
      (pvSizeAdd_eq_some (by omega)).mpr ⟨by omega, rfl⟩
    rw [hadd', dif_pos hfit]
    exact dif_pos hfit
  · rw [dif_neg hfit]
    rcases hadd' : pvSizeAdd (alignUp (2 ^ k) arena.used) size with _ | stop
    · rfl
    · obtain ⟨-, rfl⟩ := (pvSizeAdd_eq_some (by omega)).mp hadd'
      exact dif_neg hfit

/-! ## Filling the arena -/

/-- `b` is `a` after some allocations, and some writes from `lo` to `hi`: same region, cursor
further on, everything else below the old cursor unchanged. -/
structure Arena.ExtendsBut (lo hi : Nat) (a b : Arena) : Prop where
  capacity_eq : b.capacity = a.capacity
  used_le : a.used ≤ b.used
  outside : ∀ off len, off + len ≤ a.used → off + len ≤ lo ∨ hi ≤ off →
    slice b.base.bytes off len = slice a.base.bytes off len

/-- `b` is `a` after some allocations: everything below the old cursor is unchanged. -/
abbrev Arena.Extends (a b : Arena) : Prop := a.ExtendsBut 0 0 b

theorem Arena.ExtendsBut.refl (a : Arena) : a.ExtendsBut lo hi a :=
  ⟨rfl, le_refl _, fun _ _ _ _ => rfl⟩

theorem Arena.ExtendsBut.trans {c : Arena} (hab : a.ExtendsBut lo hi b)
    (hbc : b.ExtendsBut lo hi c) : a.ExtendsBut lo hi c where
  capacity_eq := hbc.capacity_eq.trans hab.capacity_eq
  used_le := le_trans hab.used_le hbc.used_le
  outside off len h hout := by
    rw [hbc.outside off len (le_trans h hab.used_le) hout, hab.outside off len h hout]

theorem Arena.ExtendsBut.mono (h : a.ExtendsBut lo' hi b) (hlo : lo ≤ lo') :
    a.ExtendsBut lo hi b :=
  { h with outside := fun off len hle hout =>
      h.outside off len hle (hout.imp_left fun hout => le_trans hout hlo) }

theorem Arena.ExtendsBut.below (h : a.Extends b) (off len : Nat) (hle : off + len ≤ a.used) :
    slice b.base.bytes off len = slice a.base.bytes off len :=
  h.outside off len hle (.inr (Nat.zero_le _))

/-- The slice lies below the cursor and points to `data`. -/
structure Arena.Holds (arena : Arena) (s : Slice) (data : Bytes) : Prop where
  below : s.off + s.len ≤ arena.used
  deref_eq : arena.deref s = data
  len_eq : s.len = data.length

/-- The same, with the slice at `lo` or above. -/
structure Arena.HoldsFrom (arena : Arena) (lo : Nat) (s : Slice) (data : Bytes) : Prop
    extends arena.Holds s data where
  above : s.len = 0 ∨ lo ≤ s.off

theorem Arena.HoldsFrom.extends (h : a.HoldsFrom hi s data) (hab : a.ExtendsBut lo hi b) :
    b.HoldsFrom hi s data where
  below := le_trans h.below hab.used_le
  deref_eq := by
    rcases h.above with hempty | habove
    · rw [← h.deref_eq, deref, deref, hempty, slice_zero, slice_zero]
    · rw [deref, hab.outside _ _ h.below (.inr habove)]
      exact h.deref_eq
  len_eq := h.len_eq
  above := h.above

theorem Arena.Holds.extends (h : a.Holds s data) (hab : a.Extends b) : b.Holds s data :=
  (Arena.HoldsFrom.extends ⟨h, .inr (Nat.zero_le _)⟩ hab).toHolds

theorem Arena.holds_null (arena : Arena) : arena.Holds Slice.null [] where
  below := Nat.zero_le _
  deref_eq := slice_zero _ _
  len_eq := rfl

/-- On a writable arena, `x` succeeds exactly when placing `requests` ends within the
capacity. It then leaves the cursor there and returns a result that satisfies `post`;
otherwise it fails with `PV_ERR_LIMIT`. Of what lies below the cursor it may change the bytes
from `lo` to `hi`. -/
def FillsBut (lo hi : Nat) {α : Type} (x : ArenaM α) (requests : List Request)
    (post : α → Arena → Prop) : Prop :=
  ∀ arena : Arena, arena.readonly = false → hi ≤ arena.used →
    (placeAll arena.used requests ≤ arena.capacity →
      ∃ r arena', x.run.run arena = (.ok r, arena') ∧ arena.ExtendsBut lo hi arena' ∧
        arena'.readonly = false ∧ arena'.used = placeAll arena.used requests ∧ post r arena') ∧
    (arena.capacity < placeAll arena.used requests →
      ∃ arena', x.run.run arena = (.error .errLimit, arena') ∧ arena.ExtendsBut lo hi arena')

/-- The same with everything below the cursor left alone. -/
abbrev Fills {α : Type} (x : ArenaM α) (requests : List Request) (post : α → Arena → Prop) : Prop :=
  FillsBut 0 0 x requests post

theorem run_pure (r : α) (arena : Arena) :
    (pure r : ArenaM α).run.run arena = (.ok r, arena) := rfl

theorem run_bind (x : ArenaM α) (f : α → ArenaM β) (arena : Arena) :
    (x >>= f).run.run arena = match x.run.run arena with
      | (.ok r, arena') => (f r).run.run arena'
      | (.error e, arena') => (.error e, arena') := by
  rcases h : x.run.run arena with ⟨_ | _, _⟩
  · simp only [ExceptT.run_bind, StateT.run_bind, h]
    rfl
  · simp only [ExceptT.run_bind, StateT.run_bind, h]
    rfl

theorem fills_pure (r : α) :
    FillsBut lo hi (pure r) [] fun r' _ => r' = r := by
  intro arena hw _
  refine ⟨fun _ => ⟨r, arena, rfl, Arena.ExtendsBut.refl _, hw, rfl, rfl⟩, fun h => ?_⟩
  exact absurd arena.used_le (Nat.not_le.mpr h)

variable {x : ArenaM α}

/-- Sequencing: the requests follow each other, and what the first part established has to
survive the second, which may have a smaller window to write in. -/
theorem FillsBut.bind_from {f : α → ArenaM β} (hx : FillsBut lo hi x rs P) (hlo : lo ≤ lo')
    (hf : ∀ r arena, P r arena → FillsBut lo' hi (f r) ss (Q r))
    (hstable : ∀ r a b, hi ≤ a.used → Arena.ExtendsBut lo' hi a b → P r a → P r b) :
    FillsBut lo hi (x >>= f) (rs ++ ss) fun r' arena => ∃ r, P r arena ∧ Q r r' arena := by
  intro arena hw hhi
  obtain ⟨hok, hfail⟩ := hx arena hw hhi
  rw [placeAll_append]
  refine ⟨fun hfit => ?_, fun hover => ?_⟩
  · -- the second part ends within the capacity, so the first one does
    obtain ⟨r, mid, hrun, hext, hw', hused, hP⟩ := hok (le_trans (le_placeAll _ _) hfit)
    have hmid := le_trans hhi hext.used_le
    obtain ⟨hok', -⟩ := hf r mid hP mid hw' hmid
    rw [hused, hext.capacity_eq] at hok'
    obtain ⟨r', fin, hrun', hext', hw'', hused', hQ⟩ := hok' hfit
    refine ⟨r', fin, ?_, hext.trans (hext'.mono hlo), hw'', hused', r,
      hstable r mid fin hmid hext' hP, hQ⟩
    rw [run_bind, hrun]
    exact hrun'
  · by_cases hfirst : placeAll arena.used rs ≤ arena.capacity
    · obtain ⟨r, mid, hrun, hext, hw', hused, hP⟩ := hok hfirst
      obtain ⟨-, hfail'⟩ := hf r mid hP mid hw' (le_trans hhi hext.used_le)
      rw [hused, hext.capacity_eq] at hfail'
      obtain ⟨fin, hrun', hext'⟩ := hfail' hover
      refine ⟨fin, ?_, hext.trans (hext'.mono hlo)⟩
      rw [run_bind, hrun]
      exact hrun'
    · obtain ⟨fin, hrun, hext⟩ := hfail (Nat.lt_of_not_le hfirst)
      refine ⟨fin, ?_, hext⟩
      rw [run_bind, hrun]

theorem FillsBut.bind {f : α → ArenaM β} (hx : FillsBut lo hi x rs P)
    (hf : ∀ r arena, P r arena → FillsBut lo hi (f r) ss (Q r))
    (hstable : ∀ r a b, Arena.ExtendsBut lo hi a b → P r a → P r b) :
    FillsBut lo hi (x >>= f) (rs ++ ss) fun r' arena => ∃ r, P r arena ∧ Q r r' arena :=
  hx.bind_from (le_refl lo) hf fun r a b _ => hstable r a b

/-- The last step of a copy, which only puts the result together. -/
theorem FillsBut.map (hx : FillsBut lo hi x rs P) (g : α → β) :
    FillsBut lo hi (x >>= fun r => pure (g r)) rs fun r' arena => ∃ r, P r arena ∧ r' = g r := by
  intro arena hw hhi
  obtain ⟨hok, hfail⟩ := hx arena hw hhi
  refine ⟨fun hfit => ?_, fun hover => ?_⟩
  · obtain ⟨r, arena', hrun, hext, hw', hused, hP⟩ := hok hfit
    exact ⟨g r, arena', by rw [run_bind, hrun]; rfl, hext, hw', hused, r, hP, rfl⟩
  · obtain ⟨arena', hrun, hext⟩ := hfail hover
    exact ⟨arena', by rw [run_bind, hrun], hext⟩

theorem FillsBut.post {Q : α → Arena → Prop} (hx : FillsBut lo hi x rs P)
    (h : ∀ r arena, P r arena → Q r arena) :
    FillsBut lo hi x rs Q := by
  intro arena hw hhi
  obtain ⟨hok, hfail⟩ := hx arena hw hhi
  refine ⟨fun hfit => ?_, hfail⟩
  obtain ⟨r, arena', hrun, hext, hw', hused, hP⟩ := hok hfit
  exact ⟨r, arena', hrun, hext, hw', hused, h r arena' hP⟩

/-- What is known of a run that succeeded. -/
theorem Fills.ok (hx : Fills x rs P) {r : α} (hw : arena.readonly = false)
    (h : x.run.run arena = (.ok r, arena')) :
    arena.Extends arena' ∧ arena'.readonly = false ∧ arena'.used = placeAll arena.used rs ∧
      P r arena' := by
  obtain ⟨hok, hfail⟩ := hx arena hw (Nat.zero_le _)
  by_cases hfit : placeAll arena.used rs ≤ arena.capacity
  · obtain ⟨r', arena'', hrun, hpost⟩ := hok hfit
    rw [h] at hrun
    cases hrun
    exact hpost
  · obtain ⟨arena'', hrun, -⟩ := hfail (Nat.lt_of_not_le hfit)
    rw [h] at hrun
    cases hrun

/-- What is known of a run that failed. -/
theorem Fills.error (hx : Fills x rs P) {status : PvStatus} (hw : arena.readonly = false)
    (h : x.run.run arena = (.error status, arena')) :
    status = .errLimit ∧ arena.Extends arena' := by
  obtain ⟨hok, hfail⟩ := hx arena hw (Nat.zero_le _)
  by_cases hfit : placeAll arena.used rs ≤ arena.capacity
  · obtain ⟨r', arena'', hrun, -⟩ := hok hfit
    rw [h] at hrun
    cases hrun
  · obtain ⟨arena'', hrun, hext⟩ := hfail (Nat.lt_of_not_le hfit)
    rw [h] at hrun
    cases hrun
    exact ⟨rfl, hext⟩

/-! ## The requests of a copy -/

/-- The request for an array of `count` items of `size` bytes, eight-aligned. -/
def arrayRequest (count size : Nat) : Request := ⟨count * size, 8, by omega⟩

/-- The request for a text of `len` bytes and its terminating zero. -/
def byteRequest (len : Nat) : Request := ⟨len + 1, 1, by omega⟩

/-- The requests of `pv_arena_copy` for a text of `len` bytes: none when it is empty. -/
def textRequests (len : Nat) : List Request := if len = 0 then [] else [byteRequest len]

theorem run_allocOrLimit (size alignment : Nat) (arena : Arena) :
    (allocOrLimit size alignment).run.run arena = match pvArenaAlloc arena size alignment with
      | none => (.error .errLimit, arena)
      | some (off, arena) => (.ok off, arena) := rfl

/-- A region is handed out and then filled: the writes may go to the new region, since it lies
above everything that was there before. -/
theorem fills_region (hsize : size ≠ 0) (hk : k < 64) {f : Nat → ArenaM β}
    {Q : Nat → β → Arena → Prop} (hf : ∀ off, FillsBut off (off + size) (f off) ss (Q off)) :
    Fills (allocOrLimit size (2 ^ k) >>= f) (⟨size, 2 ^ k, Nat.two_pow_pos k⟩ :: ss)
      fun r arena => ∃ off, off + size ≤ arena.used ∧ Q off r arena := by
  intro arena hw _
  have hrun := run_allocOrLimit size (2 ^ k) arena
  have hle := le_alignUp (Nat.two_pow_pos k) arena.used
  rw [pvArenaAlloc_eq arena hsize hk hw] at hrun
  rw [placeAll_cons, place]
  by_cases hroom : alignUp (2 ^ k) arena.used + size ≤ arena.capacity
  · rw [dif_pos hroom] at hrun
    let mid : Arena := { arena with
      base := arena.base.overwrite (alignUp (2 ^ k) arena.used) (List.replicate size 0)
      used := alignUp (2 ^ k) arena.used + size
      used_le := hroom }
    obtain ⟨hok, hfail⟩ := hf (alignUp (2 ^ k) arena.used) mid hw (le_refl _)
    -- neither the zeroing nor the writes reach below the old cursor
    have hkept : ∀ {fin : Arena}, mid.ExtendsBut (alignUp (2 ^ k) arena.used)
        (alignUp (2 ^ k) arena.used + size) fin → arena.Extends fin := by
      intro fin hext
      have hup := le_trans hle (Nat.le_add_right (alignUp (2 ^ k) arena.used) size)
      refine ⟨hext.capacity_eq, le_trans hup hext.used_le, fun off len h _ => ?_⟩
      rw [hext.outside off len (le_trans h hup) (.inl (le_trans h hle))]
      exact Block.slice_overwrite_disjoint _ _ (.inl (le_trans h hle))
    refine ⟨fun hfit => ?_, fun hover => ?_⟩
    · obtain ⟨r, fin, hrun', hext, hw', hused, hQ⟩ := hok hfit
      refine ⟨r, fin, ?_, hkept hext, hw', hused, _, hext.used_le, hQ⟩
      rw [run_bind, hrun]
      exact hrun'
    · obtain ⟨fin, hrun', hext⟩ := hfail hover
      refine ⟨fin, ?_, hkept hext⟩
      rw [run_bind, hrun]
      exact hrun'
  · rw [dif_neg hroom] at hrun
    refine ⟨fun hfit => absurd (le_trans (le_placeAll _ _) hfit) hroom, fun _ => ?_⟩
    exact ⟨arena, by rw [run_bind, hrun], Arena.ExtendsBut.refl _⟩

theorem fills_alloc (hsize : size ≠ 0) (hk : k < 64) :
    Fills (allocOrLimit size (2 ^ k)) [⟨size, 2 ^ k, Nat.two_pow_pos k⟩] fun _ _ => True := by
  have hregion := fills_region hsize hk fun off => fills_pure off
  rw [bind_pure] at hregion
  exact hregion.post fun _ _ _ => trivial

/-- A write inside the window leaves its data there. -/
theorem fills_writeAt {off : Nat} (data : Bytes) (hlo : lo ≤ off) (hhi : off + data.length ≤ hi) :
    FillsBut lo hi (writeAt off data) [] fun _ arena =>
      slice arena.base.bytes off data.length = data := by
  intro arena hw hused
  refine ⟨fun _ => ⟨(), _, rfl, ⟨rfl, le_refl _, fun o l _ hout => ?_⟩, hw, rfl, ?_⟩, fun h => ?_⟩
  · exact Block.slice_overwrite_disjoint _ _ (hout.imp (le_trans · hlo) (le_trans hhi))
  · have hfit : off + (data ++ []).length ≤ arena.capacity := by
      rw [List.append_nil]
      exact le_trans hhi (le_trans hused arena.used_le)
    have hslice := Block.slice_overwrite_prefix arena.base hfit
    rwa [List.append_nil] at hslice
  · exact absurd arena.used_le (Nat.not_le.mpr h)

/-- **What a copy does**: the slice it returns holds the data, above everything that was
there before. -/
theorem fills_pvArenaCopy_from (lo hi : Nat) (hlen : data.length ≤ maxLen) :
    FillsBut lo hi (pvArenaCopy data maxLen) (textRequests data.length) fun s arena =>
      arena.HoldsFrom hi s data := by
  rw [pvArenaCopy, if_neg (Nat.not_lt.mpr hlen), textRequests]
  by_cases hempty : data.length = 0
  · rw [if_pos hempty, if_pos hempty]
    refine (fills_pure _).post fun r arena hr => ?_
    rw [hr, List.length_eq_zero_iff.mp hempty]
    exact ⟨arena.holds_null, .inl rfl⟩
  · rw [if_neg hempty, if_neg hempty]
    intro arena hw hhi
    have halloc := run_allocOrLimit (data.length + 1) 1 arena
    rw [show (1 : Nat) = 2 ^ 0 from rfl, pvArenaAlloc_eq arena (by omega) (by omega) hw] at halloc
    have hplace : placeAll arena.used [byteRequest data.length] = arena.used + (data.length + 1) := by
      rw [placeAll_cons, placeAll_nil, place, byteRequest, alignUp_one]
    rw [hplace]
    rw [pow_zero, alignUp_one] at halloc
    refine ⟨fun hfit => ?_, fun hover => ?_⟩
    · rw [dif_pos hfit] at halloc
      have hsrc : (data ++ [0]).length = data.length + 1 := by simp
      have hrun : (do
          let destination ← allocOrLimit (data.length + 1) 1
          writeAt destination (data ++ [0])
          pure (Slice.mk destination data.length) : ArenaM Slice).run.run arena =
          (.ok ⟨arena.used, data.length⟩, { arena with
            base := (arena.base.overwrite arena.used (List.replicate (data.length + 1) 0)).overwrite
              arena.used (data ++ [0])
            used := arena.used + (data.length + 1)
            used_le := hfit }) := by
        rw [run_bind, halloc]
        rfl
      refine ⟨_, _, hrun, ⟨rfl, Nat.le_add_right _ _, fun off len h _ => ?_⟩, hw, rfl,
        ⟨?_, ?_, rfl⟩, .inr hhi⟩
      · -- both the zeroing and the copy stay above the old cursor
        rw [Block.slice_overwrite_disjoint _ _ (.inl h), Block.slice_overwrite_disjoint _ _ (.inl h)]
      · exact Nat.add_le_add_left (Nat.le_succ _) _
      · exact Block.slice_overwrite_prefix _ (by rw [hsrc]; exact hfit)
    · rw [dif_neg (Nat.not_le.mpr hover)] at halloc
      exact ⟨arena, by rw [run_bind, halloc], Arena.ExtendsBut.refl _⟩

theorem fills_pvArenaCopy (hlen : data.length ≤ maxLen) :
    Fills (pvArenaCopy data maxLen) (textRequests data.length) fun s arena =>
      arena.Holds s data :=
  (fills_pvArenaCopy_from 0 0 hlen).post fun _ _ h => h.toHolds

end PVault
