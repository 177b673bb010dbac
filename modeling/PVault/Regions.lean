import PVault.Arena

/-!
# What the arena hands out (`src/arena.c`)

Any sequence of `pv_arena_alloc` and `pv_arena_copy`, with any sizes and alignments, seen as a
list of regions. A region starts at or after the cursor and ends at the new cursor, so the
cursor separates it from everything handed out before.

* `pvArenaAlloc_some` — what is known of a request that was granted.
* `Ledger` — the regions of a run: disjoint, aligned, in bounds, and the copies intact.
* `arena_regions_disjoint_and_stable` — every run keeps such a ledger.
-/

namespace PVault

open Binary Bump

variable {arena arena' : Arena}

/-! ## Calls -/

/-- A call of the allocator. -/
inductive ArenaCall : Type where
  | alloc (size alignment : UInt64)
  | copy (data : Bytes) (maxLen : UInt64)

/-- A region that was handed out, and what was copied into it. -/
structure Region where
  off : Nat
  size : Nat
  align : Nat
  data : Option Bytes
  deriving DecidableEq, Repr

/-- What a call hands out; a copy of nothing takes no room. -/
def ArenaCall.run (arena : Arena) : ArenaCall → Option Region × Arena
  | .alloc size alignment =>
    match pvArenaAlloc arena size.toNat alignment.toNat with
    | none => (none, arena)
    | some (off, arena) => (some ⟨off, size.toNat, alignment.toNat, none⟩, arena)
  | .copy data maxLen =>
    match (pvArenaCopy data maxLen.toNat).run.run arena with
    | (.ok s, arena) => (if s.len = 0 then none else some ⟨s.off, s.len + 1, 1, some data⟩, arena)
    | (.error _, arena) => (none, arena)

/-- A sequence of calls, and what it hands out. -/
def runCalls (arena : Arena) : List ArenaCall → List Region × Arena
  | [] => ([], arena)
  | call :: calls =>
    let (region, arena) := call.run arena
    let (regions, arena) := runCalls arena calls
    (region.toList ++ regions, arena)

/-! ## One call -/

/-- **A request that was granted**: its alignment is a power of two, the region starts at the next
multiple of it, and neither sum of the allocator wraps. -/
theorem pvArenaAlloc_some {size alignment off : Nat} (halign : alignment ≤ sizeMax)
    (h : pvArenaAlloc arena size alignment = some (off, arena')) :
    0 < alignment ∧ arena.used + (alignment - 1) ≤ sizeMax ∧ off + size ≤ sizeMax ∧
      off = alignUp alignment arena.used ∧ off + size = arena'.used ∧ arena.Extends arena' := by
  have hmax := sizeMax_eq
  have hcap := arena.capacity_le
  have hplain := pvMaxPlaintext_eq
  have hused := arena.used_le
  have hguard : ¬(arena.readonly ∨ size = 0 ∨ alignment = 0 ∨ alignment &&& (alignment - 1) ≠ 0) := by
    intro hbad
    rw [pvArenaAlloc, if_pos hbad] at h
    cases h
  simp only [not_or, not_not, Bool.not_eq_true] at hguard
  obtain ⟨hw, hsize, hne, hland⟩ := hguard
  obtain ⟨k, rfl⟩ := exists_two_pow_of_land_pred hne hland
  have hk : k < 64 := by
    rw [hmax] at halign
    exact (Nat.pow_lt_pow_iff_right (by decide)).mp (Nat.lt_of_le_pred (by decide) halign)
  have hpow : 2 ^ k ≤ 2 ^ 63 := Nat.pow_le_pow_right (by omega) (by omega)
  rw [pvArenaAlloc_eq arena hsize hk hw] at h
  split at h
  · next hfit =>
    cases h
    have hle := le_alignUp (Nat.two_pow_pos k) arena.used
    refine ⟨Nat.two_pow_pos k, by omega, by omega, rfl, rfl, rfl, ?_, fun o l hbelow _ => ?_⟩
    · exact Nat.le_trans hle (Nat.le_add_right _ _)
    · exact Block.slice_overwrite_disjoint _ _ (.inl (Nat.le_trans hbelow hle))
  · cases h

/-- A copy that was made: it ends at the new cursor, with a zero byte. -/
theorem pvArenaCopy_ok {data : Bytes} {maxLen : Nat} {s : Slice}
    (h : (pvArenaCopy data maxLen).run.run arena = (.ok s, arena')) (hne : s.len ≠ 0) :
    s = ⟨arena.used, data.length⟩ ∧ data.length + 1 ≤ sizeMax ∧
      arena'.used = arena.used + (data.length + 1) ∧ arena.Extends arena' ∧
      slice arena'.base.bytes arena.used (data.length + 1) = data ++ [0] := by
  have hmax := sizeMax_eq
  rw [pvArenaCopy] at h
  split at h
  · cases h
  split at h
  · cases h
    exact absurd rfl hne
  next hpos =>
  have halloc := run_allocOrLimit (data.length + 1) 1 arena
  rw [run_bind, halloc] at h
  cases hcase : pvArenaAlloc arena (data.length + 1) 1 with
  | none =>
    rw [hcase] at h
    cases h
  | some r =>
    obtain ⟨off, mid⟩ := r
    obtain ⟨-, -, hlen, hoff, hused, hext⟩ := pvArenaAlloc_some (by omega) hcase
    rw [alignUp_one] at hoff
    rw [hcase] at h
    cases h
    subst hoff
    have hcap := mid.used_le
    have hfit : arena.used + (data ++ [0]).length ≤ mid.capacity := by
      rw [List.length_append, List.length_singleton]
      omega
    have hcopied : slice (mid.base.overwrite arena.used (data ++ [0])).bytes arena.used
        (data ++ [0]).length = data ++ [0] := by
      rw [Block.bytes_overwrite hfit]
      exact slice_splice_self (by rw [mid.base.length_eq]; exact hfit)
    rw [List.length_append, List.length_singleton] at hcopied
    refine ⟨rfl, by omega, hused.symm, ⟨hext.capacity_eq, hext.used_le, fun o l hbelow _ => ?_⟩,
      hcopied⟩
    rw [← hext.below o l hbelow]
    exact Block.slice_overwrite_disjoint _ _ (.inl hbelow)

/-- A copy that takes no room leaves the arena alone. -/
theorem pvArenaCopy_nothing {data : Bytes} {maxLen : Nat} {r : Except PvStatus Slice}
    (h : (pvArenaCopy data maxLen).run.run arena = (r, arena'))
    (hnone : ∀ s, r = .ok s → s.len = 0) : arena' = arena := by
  rw [pvArenaCopy] at h
  split at h
  · cases h
    rfl
  split at h
  · cases h
    rfl
  next hpos =>
  rw [run_bind, run_allocOrLimit] at h
  cases hcase : pvArenaAlloc arena (data.length + 1) 1 with
  | none =>
    rw [hcase] at h
    cases h
    rfl
  | some r =>
    rw [hcase] at h
    cases h
    exact absurd (hnone _ rfl) hpos

/-- **What is known of a region** when it is handed out. -/
structure Granted (arena : Arena) (r : Region) (arena' : Arena) : Prop where
  grows : arena.Extends arena'
  start_le : arena.used ≤ r.off
  stop_eq : r.off + r.size = arena'.used
  aligned : r.align ∣ r.off
  /-- no sum has wrapped -/
  nowrap : arena.used + (r.align - 1) ≤ sizeMax ∧ r.off + r.size ≤ sizeMax
  /-- a copy is there, and a zero byte after it -/
  intact : ∀ data, r.data = some data → slice arena'.base.bytes r.off r.size = data ++ [0]

theorem ArenaCall.run_none {call : ArenaCall} (h : (call.run arena).1 = none) :
    (call.run arena).2 = arena := by
  cases call with
  | alloc size alignment =>
    simp only [run] at h ⊢
    split at h
    · rfl
    · cases h
  | copy data maxLen =>
    simp only [run] at h ⊢
    split at h
    · next s arena' hcopy =>
      split at h
      · next hlen => exact pvArenaCopy_nothing hcopy fun _ hs => (Except.ok.inj hs) ▸ hlen
      · cases h
    · next hcopy => exact pvArenaCopy_nothing hcopy nofun

theorem ArenaCall.run_some {call : ArenaCall} {r : Region} (h : (call.run arena).1 = some r) :
    Granted arena r (call.run arena).2 := by
  cases call with
  | alloc size alignment =>
    simp only [run] at h ⊢
    split at h
    · cases h
    next off arena' halloc =>
    cases h
    obtain ⟨hpos, hsum, hend, hoff, hused, hext⟩ :=
      pvArenaAlloc_some (Nat.le_pred_of_lt alignment.toNat_lt) halloc
    exact ⟨hext, hoff ▸ le_alignUp hpos arena.used, hused, hoff ▸ dvd_alignUp _ _, ⟨hsum, hend⟩, nofun⟩
  | copy data maxLen =>
    simp only [run] at h ⊢
    split at h
    · next s arena' hcopy =>
      split at h
      · cases h
      next hlen =>
      cases h
      obtain ⟨rfl, -, hused, hext, hcopied⟩ := pvArenaCopy_ok hcopy hlen
      have hmax := sizeMax_eq
      have hcap := arena'.used_le
      have hbound := arena'.capacity_le
      have hplain := pvMaxPlaintext_eq
      have hmono := hext.used_le
      refine ⟨hext, Nat.le_refl _, hused.symm, Nat.one_dvd _, ⟨?_, ?_⟩, ?_⟩
      · show arena.used + (1 - 1) ≤ sizeMax
        omega
      · show arena.used + (data.length + 1) ≤ sizeMax
        omega
      · intro copied hsome
        cases hsome
        exact hcopied
    · cases h

/-! ## Sequences of calls -/

/-- The regions have no byte in common. -/
def Region.Disjoint (r q : Region) : Prop := r.off + r.size ≤ q.off ∨ q.off + q.size ≤ r.off

/-- **The regions handed out** between two states of an arena. -/
structure Ledger (arena : Arena) (regions : List Region) (arena' : Arena) : Prop where
  grows : arena.Extends arena'
  within : ∀ r ∈ regions, arena.used ≤ r.off ∧ r.off + r.size ≤ arena'.used
  aligned : ∀ r ∈ regions, r.align ∣ r.off
  disjoint : regions.Pairwise Region.Disjoint
  intact : ∀ r ∈ regions, ∀ data, r.data = some data →
    slice arena'.base.bytes r.off r.size = data ++ [0]

/-- A region followed by a ledger is a ledger: the cursor separates them. -/
theorem Granted.ledger {mid : Arena} {r : Region} {regions : List Region}
    (h : Granted arena r mid) (hrest : Ledger mid regions arena') :
    Ledger arena (r :: regions) arena' where
  grows := h.grows.trans hrest.grows
  within := by
    refine List.forall_mem_cons.mpr ⟨⟨h.start_le, ?_⟩, fun q hq => ?_⟩
    · exact h.stop_eq ▸ hrest.grows.used_le
    · exact ⟨Nat.le_trans h.grows.used_le (hrest.within q hq).1, (hrest.within q hq).2⟩
  aligned := List.forall_mem_cons.mpr ⟨h.aligned, hrest.aligned⟩
  disjoint := by
    refine List.pairwise_cons.mpr ⟨fun q hq => .inl ?_, hrest.disjoint⟩
    exact h.stop_eq ▸ (hrest.within q hq).1
  intact := by
    refine List.forall_mem_cons.mpr ⟨fun data hdata => ?_, hrest.intact⟩
    rw [hrest.grows.below _ _ (Nat.le_of_eq h.stop_eq)]
    exact h.intact data hdata

theorem ledger_nil (arena : Arena) : Ledger arena [] arena :=
  ⟨Arena.ExtendsBut.refl _, nofun, nofun, .nil, nofun⟩

/-- **Every run keeps a ledger.** -/
theorem runCalls_ledger (calls : List ArenaCall) : ∀ arena : Arena,
    Ledger arena (runCalls arena calls).1 (runCalls arena calls).2 := by
  induction calls with
  | nil => exact ledger_nil
  | cons call calls ih =>
    intro arena
    rw [runCalls]
    cases hregion : (call.run arena).1 with
    | none =>
      have hrest := ih arena
      simp only [hregion, ArenaCall.run_none hregion, Option.toList_none, List.nil_append]
      exact hrest
    | some r =>
      simp only [hregion, Option.toList_some, List.singleton_append]
      exact (ArenaCall.run_some hregion).ledger (ih _)

/-- **Arena allocations are disjoint, aligned, in bounds and stable**, for every sequence of calls
on every arena; and the call after them hands out a region next to all those, without wrapping, or
leaves the arena as it is. -/
theorem arena_regions_disjoint_and_stable (arena : Arena) (calls : List ArenaCall) :
    (runCalls arena calls).2.used ≤ arena.capacity ∧
    Ledger arena (runCalls arena calls).1 (runCalls arena calls).2 ∧
    ∀ call : ArenaCall,
      (∀ r, (call.run (runCalls arena calls).2).1 = some r →
        Granted (runCalls arena calls).2 r (call.run (runCalls arena calls).2).2 ∧
        ∀ q ∈ (runCalls arena calls).1, q.Disjoint r) ∧
      ((call.run (runCalls arena calls).2).1 = none →
        (call.run (runCalls arena calls).2).2 = (runCalls arena calls).2) := by
  have hledger := runCalls_ledger calls arena
  refine ⟨?_, hledger, fun call => ⟨fun r hr => ?_, ArenaCall.run_none⟩⟩
  · rw [← hledger.grows.capacity_eq]
    exact (runCalls arena calls).2.used_le
  · have hgranted := ArenaCall.run_some hr
    exact ⟨hgranted, fun q hq => .inl (Nat.le_trans (hledger.within q hq).2 hgranted.start_le)⟩

end PVault
