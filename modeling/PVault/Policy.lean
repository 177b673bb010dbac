import PVault.Lib.Bytes
import PVault.Lib.Words
import Mathlib.Data.List.Chain

/-!
# Which master passwords are refused (`src/secure.c`)

`pv_master_password_is_acceptable` looks for conspicuously weak choices in four loops over the
bytes of the password. `pvMasterPasswordIsAcceptable_iff` says in terms of words what they find:
a run of consecutive bytes, a factor of a keyboard or alphabet cycle written over and over, a
prefix of a shorter word written over and over, or one of ten well-known phrases.
-/

namespace PVault

open Binary Words

/-- The bytes of a string literal of the source. -/
def literal (text : String) : Bytes := text.toList.map fun c => UInt8.ofNat c.toNat

/-! ## The checks -/

/-- `PV_MASTER_PASSWORD_MIN_BYTES`. -/
abbrev pvMasterPasswordMinBytes : Nat := 16

/-- `for (; left > 0; ++index, --left) if (!keeps(index)) break;` gives the index after the loop. -/
def loopWhile (keeps : Nat → Bool) : Nat → Nat → Nat
  | 0, index => index
  | left + 1, index => if keeps index then loopWhile keeps left (index + 1) else index

/-- `ascii_lower`. -/
def asciiLower (byte : UInt8) : UInt8 :=
  if 0x41 ≤ byte ∧ byte ≤ 0x5a then byte + (0x61 - 0x41) else byte

/-- `password_equals_ascii_casefold`: the differences are or-ed together. -/
def passwordEqualsAsciiCasefold (password candidate : Bytes) : Bool :=
  if password.length ≠ candidate.length then false
  else bytesAllZero (List.zipWith (fun a b => asciiLower a ^^^ asciiLower b) password candidate)

/-- The inner loop of `password_follows_cycle`. -/
def followsFrom (password cycle : Bytes) (offset : Nat) : Bool :=
  loopWhile (fun index => asciiLower (password.getD index 0) ==
    asciiLower (cycle.getD ((offset + index) % cycle.length) 0)) password.length 0 == password.length

/-- `password_follows_cycle`. -/
def passwordFollowsCycle (password cycle : Bytes) : Bool :=
  (List.range cycle.length).any (followsFrom password cycle)

/-- `cycles`. -/
def cycles : List Bytes :=
  [literal "0123456789", literal "9876543210", literal "abcdefghijklmnopqrstuvwxyz",
    literal "zyxwvutsrqponmlkjihgfedcba", literal "qwertyuiopasdfghjklzxcvbnm",
    literal "mnbvcxzlkjhgfdsapoiuytrewq"]

/-- `(int)password[index] - (int)password[index - 1]`. -/
def stepAt (password : Bytes) (index : Nat) : Int :=
  ((password.getD index 0).toNat : Int) - (password.getD (index - 1) 0).toNat

/-- The first part of `password_is_full_sequence`. -/
def passwordCounts (password : Bytes) : Bool :=
  if 2 ≤ password.length then
    let step := stepAt password 1
    if step = 1 ∨ step = -1 then
      loopWhile (fun index => stepAt password index == step) (password.length - 2) 2 == password.length
    else false
  else false

/-- `password_is_full_sequence`. -/
def passwordIsFullSequence (password : Bytes) : Bool :=
  passwordCounts password || cycles.any (passwordFollowsCycle password)

/-- The inner loop of `password_is_periodic`. -/
def repeatsEvery (password : Bytes) (period : Nat) : Bool :=
  loopWhile (fun index => password.getD index 0 == password.getD (index % period) 0)
    (password.length - period) period == password.length

/-- `password_is_periodic`. -/
def passwordIsPeriodic (password : Bytes) : Bool :=
  (List.range' 1 (password.length / 2)).any (repeatsEvery password)

/-- `common_passwords`. -/
def commonPasswords : List Bytes :=
  [literal "correcthorsebatterystaple", literal "correct horse battery staple", literal "passwordpassword",
    literal "password12345678", literal "password123456789", literal "letmeinletmeinletmein",
    literal "adminadminadminadmin", literal "qwertyqwertyqwerty", literal "iloveyouiloveyou",
    literal "thisisnotasecurepassword"]

/-- `pv_master_password_is_acceptable`. -/
def pvMasterPasswordIsAcceptable (password : Bytes) : Bool :=
  if password.length < pvMasterPasswordMinBytes ∨ passwordIsFullSequence password = true ∨
      passwordIsPeriodic password = true then false
  else !commonPasswords.any (passwordEqualsAsciiCasefold password)

/-! ## What the loops find -/

variable {password cycle : Bytes}

/-- The loop runs to its end when nothing stops it. -/
theorem loopWhile_eq_iff (keeps : Nat → Bool) (left index : Nat) :
    loopWhile keeps left index = index + left ↔ ∀ i < left, keeps (index + i) = true := by
  induction left generalizing index with
  | zero => exact ⟨fun _ i hi => absurd hi (Nat.not_lt_zero i), fun _ => rfl⟩
  | succ left ih =>
    rw [loopWhile]
    split
    · next hkeeps =>
      rw [show index + (left + 1) = index + 1 + left by omega]
      refine (ih (index + 1)).trans ?_
      constructor
      · intro h i hi
        cases i with
        | zero => exact hkeeps
        | succ i =>
          rw [show index + (i + 1) = index + 1 + i by omega]
          exact h i (by omega)
      · intro h i hi
        rw [show index + 1 + i = index + (i + 1) by omega]
        exact h (i + 1) (by omega)
    · next hstops =>
      exact ⟨fun h => by omega, fun h => absurd (h 0 (Nat.succ_pos _)) hstops⟩

/-- `asciiLower` sees no difference, and a difference of letters. -/
theorem passwordEqualsAsciiCasefold_iff {candidate : Bytes} :
    passwordEqualsAsciiCasefold password candidate = true ↔
      password.map asciiLower = candidate.map asciiLower := by
  rw [passwordEqualsAsciiCasefold]
  split
  · next hne =>
    refine ⟨(fun h => by cases h), fun h => absurd ?_ hne⟩
    simpa using congrArg List.length h
  next hlen =>
  rw [bytesAllZero_iff]
  have hlen := not_not.mp hlen
  clear * - hlen
  induction password generalizing candidate with
  | nil =>
    cases candidate with
    | nil => simp
    | cons => cases hlen
  | cons a password ih =>
    cases candidate with
    | nil => cases hlen
    | cons b candidate =>
      rw [List.zipWith_cons_cons, List.forall_mem_cons, List.map_cons, List.map_cons, List.cons.injEq,
        UInt8.xor_eq_zero_iff]
      exact and_congr_right' (ih (Nat.succ.inj hlen))

/-- **Following a cycle** is being a factor of it, written over and over. -/
theorem passwordFollowsCycle_iff (hcycle : cycle ≠ []) :
    passwordFollowsCycle password cycle = true ↔
      ∃ n, password.map asciiLower <:+: pow (cycle.map asciiLower) n := by
  have hne : cycle.map asciiLower ≠ [] := by simpa using hcycle
  have hpos : 0 < cycle.length := List.length_pos_of_ne_nil hcycle
  rw [infix_pow_iff hne, passwordFollowsCycle, List.any_eq_true]
  simp only [List.mem_range, List.length_map, followsFrom, beq_iff_eq]
  refine exists_congr fun offset => and_congr_right fun _ => ?_
  have hloop := loopWhile_eq_iff (fun index => asciiLower (password.getD index 0) ==
    asciiLower (cycle.getD ((offset + index) % cycle.length) 0)) password.length 0
  rw [Nat.zero_add] at hloop
  refine hloop.trans ?_
  refine forall_congr' fun i => forall_congr' fun hi => ?_
  have hmod : (offset + i) % cycle.length < cycle.length := Nat.mod_lt _ hpos
  simp [hi, hmod]

/-- A password that repeats itself is a prefix of its beginning, written over and over. -/
theorem repeatsEvery_iff {period : Nat} (hpos : 0 < period) (hle : period ≤ password.length) :
    repeatsEvery password period = true ↔ ∃ n, password <+: pow (password.take period) n := by
  have htake : (password.take period).length = period := List.length_take_of_le hle
  have hne : password.take period ≠ [] := by
    refine List.ne_nil_of_length_pos ?_
    rwa [htake]
  have hloop := loopWhile_eq_iff (fun index => password.getD index 0 == password.getD (index % period) 0)
    (password.length - period) period
  rw [Nat.add_sub_cancel' hle] at hloop
  rw [prefix_pow_iff hne, htake, repeatsEvery, beq_iff_eq, hloop]
  have hmod : ∀ i, i % period < password.length := fun i => Nat.lt_of_lt_of_le (Nat.mod_lt i hpos) hle
  have hget : ∀ i < password.length, (password[i]? = (password.take period)[i % period]? ↔
      password.getD i 0 = password.getD (i % period) 0) := by
    intro i hi
    rw [List.getElem?_take_of_lt (Nat.mod_lt i hpos)]
    simp [hi, hmod i]
  constructor
  · intro h i hi
    rw [hget i hi]
    by_cases hfirst : i < period
    · rw [Nat.mod_eq_of_lt hfirst]
    · have hkeeps := h (i - period) (by omega)
      rwa [Nat.add_sub_cancel' (Nat.le_of_not_lt hfirst), beq_iff_eq] at hkeeps
  · intro h i hi
    rw [beq_iff_eq, ← hget _ (by omega)]
    exact h _ (by omega)

/-- **Being periodic** is being a prefix of a word written over and over that fits twice. -/
theorem passwordIsPeriodic_iff : passwordIsPeriodic password = true ↔
    ∃ word n, word ≠ [] ∧ 2 * word.length ≤ password.length ∧ password <+: pow word n := by
  rw [passwordIsPeriodic, List.any_eq_true]
  simp only [List.mem_range'_1]
  constructor
  · rintro ⟨period, ⟨hpos, hlt⟩, h⟩
    have hle : period ≤ password.length := by omega
    obtain ⟨n, hn⟩ := (repeatsEvery_iff hpos hle).mp h
    have htake : (password.take period).length = period := List.length_take_of_le hle
    refine ⟨password.take period, n, List.ne_nil_of_length_pos ?_, ?_, hn⟩
    · rwa [htake]
    · rw [htake]
      omega
  · rintro ⟨word, n, hne, htwice, hn⟩
    have hpos : 0 < word.length := List.length_pos_of_ne_nil hne
    -- The word is how the password begins.
    have htake : password.take word.length = word := by
      cases n with
      | zero =>
        have hlen := hn.length_le
        rw [length_pow] at hlen
        omega
      | succ n =>
        rw [pow_succ] at hn
        exact (List.prefix_iff_eq_take.mp
          (List.prefix_of_prefix_length_le (List.prefix_append ..) hn (by omega))).symm
    refine ⟨word.length, ⟨hpos, by omega⟩, (repeatsEvery_iff hpos (by omega)).mpr ⟨n, ?_⟩⟩
    rwa [htake]

/-- A chain of differences, index by index. -/
theorem isChain_step_iff (step : Int) :
    password.IsChain (fun a b => (b.toNat : Int) - a.toNat = step) ↔
      ∀ i, i + 1 < password.length → stepAt password (i + 1) = step := by
  rw [List.isChain_iff_getElem]
  refine forall_congr' fun i => forall_congr' fun hi => ?_
  rw [stepAt, Nat.add_sub_cancel, List.getD_eq_getElem _ _ hi, List.getD_eq_getElem _ _ (Nat.lt_of_succ_lt hi)]

/-- **Counting** is a chain of bytes that go up by one, or down by one. -/
theorem passwordCounts_iff : passwordCounts password = true ↔ 2 ≤ password.length ∧
    (password.IsChain (fun a b => (b.toNat : Int) - a.toNat = 1) ∨
      password.IsChain fun a b => (b.toNat : Int) - a.toNat = -1) := by
  -- The first step decides which of the two it can be.
  have hchain : ∀ step : Int, 2 ≤ password.length →
      (password.IsChain (fun a b => (b.toNat : Int) - a.toNat = step) ↔ stepAt password 1 = step ∧
        loopWhile (fun index => stepAt password index == step) (password.length - 2) 2 =
          password.length) := by
    intro step hlen
    have hloop := loopWhile_eq_iff (fun index => stepAt password index == step) (password.length - 2) 2
    rw [Nat.add_sub_cancel' hlen] at hloop
    rw [isChain_step_iff, hloop]
    constructor
    · intro h
      refine ⟨h 0 (by omega), fun i hi => ?_⟩
      rw [beq_iff_eq, show 2 + i = i + 1 + 1 by omega]
      exact h (i + 1) (by omega)
    · rintro ⟨hfirst, hrest⟩ i hi
      cases i with
      | zero => exact hfirst
      | succ i =>
        have hkeeps := hrest i (by omega)
        rwa [beq_iff_eq, show 2 + i = i + 1 + 1 by omega] at hkeeps
  rw [passwordCounts]
  split
  swap
  · next hlen => exact ⟨(fun h => by cases h), fun h => absurd h.1 hlen⟩
  next hlen =>
  rw [hchain 1 hlen, hchain (-1) hlen]
  dsimp only
  split
  · next hstep =>
    rcases hstep with hstep | hstep <;> rw [hstep] <;> simp [hlen]
  · next hstep =>
    refine ⟨(fun h => by cases h), fun h => absurd ?_ hstep⟩
    exact h.2.imp And.left And.left

/-- **Which master passwords are accepted.** A password is refused exactly when it is shorter than
16 bytes, counts up or down, is found in the digits, the alphabet or the rows of the keyboard written
over and over, is a shorter word written over and over, or is a well-known phrase. Rows and phrases
are compared up to the case of letters, a word with itself is not. -/
theorem pvMasterPasswordIsAcceptable_iff (password : Bytes) :
    pvMasterPasswordIsAcceptable password = true ↔ 16 ≤ password.length ∧
      ¬password.IsChain (fun a b => (b.toNat : Int) - a.toNat = 1) ∧
      ¬password.IsChain (fun a b => (b.toNat : Int) - a.toNat = -1) ∧
      (∀ cycle ∈ cycles, ∀ n, ¬password.map asciiLower <:+: pow cycle n) ∧
      (∀ word n, word ≠ [] → 2 * word.length ≤ password.length → ¬password <+: pow word n) ∧
      password.map asciiLower ∉ commonPasswords := by
  have hcycles : ∀ cycle ∈ cycles, cycle ≠ [] ∧ cycle.map asciiLower = cycle := by decide
  have hcommon : ∀ phrase ∈ commonPasswords, phrase.map asciiLower = phrase := by decide
  have hphrase : commonPasswords.any (passwordEqualsAsciiCasefold password) = true ↔
      password.map asciiLower ∈ commonPasswords := by
    rw [List.any_eq_true]
    constructor
    · rintro ⟨phrase, hmem, heq⟩
      rwa [passwordEqualsAsciiCasefold_iff.mp heq, hcommon phrase hmem]
    · intro hmem
      exact ⟨_, hmem, passwordEqualsAsciiCasefold_iff.mpr (hcommon _ hmem).symm⟩
  have hcycle : cycles.any (passwordFollowsCycle password) = true ↔
      ∃ cycle ∈ cycles, ∃ n, password.map asciiLower <:+: pow cycle n := by
    rw [List.any_eq_true]
    refine exists_congr fun cycle => and_congr_right fun hmem => ?_
    rw [passwordFollowsCycle_iff (hcycles cycle hmem).1, (hcycles cycle hmem).2]
  have hfull : passwordIsFullSequence password = true ↔
      (2 ≤ password.length ∧ (password.IsChain (fun a b => (b.toNat : Int) - a.toNat = 1) ∨
        password.IsChain fun a b => (b.toNat : Int) - a.toNat = -1)) ∨
      ∃ cycle ∈ cycles, ∃ n, password.map asciiLower <:+: pow cycle n := by
    rw [passwordIsFullSequence, Bool.or_eq_true, passwordCounts_iff, hcycle]
  rw [pvMasterPasswordIsAcceptable]
  constructor
  · intro h
    split at h
    · cases h
    next hgood =>
    simp only [not_or, Nat.not_lt] at hgood
    obtain ⟨hlen, hnotFull, hnotPeriodic⟩ := hgood
    have hchain := fun hcounts => hnotFull (hfull.mpr (.inl ⟨Nat.le_trans (by decide) hlen, hcounts⟩))
    refine ⟨hlen, fun hup => hchain (.inl hup), fun hdown => hchain (.inr hdown),
      fun cycle hmem n hfactor => hnotFull (hfull.mpr (.inr ⟨cycle, hmem, n, hfactor⟩)),
      fun word n hne htwice hprefix =>
        hnotPeriodic (passwordIsPeriodic_iff.mpr ⟨word, n, hne, htwice, hprefix⟩), fun hmem => ?_⟩
    rw [hphrase.mpr hmem] at h
    cases h
  · rintro ⟨hlen, hup, hdown, hcycles, hperiodic, hphrases⟩
    rw [if_neg]
    · exact Bool.not_eq_true' _ |>.mpr (Bool.eq_false_iff.mpr fun h => hphrases (hphrase.mp h))
    · rintro (hshort | hsequence | hperiod)
      · exact absurd hshort (Nat.not_lt.mpr hlen)
      · rcases hfull.mp hsequence with ⟨-, hcounts⟩ | ⟨cycle, hmem, n, hfactor⟩
        · exact hcounts.elim hup hdown
        · exact hcycles cycle hmem n hfactor
      · obtain ⟨word, n, hne, htwice, hprefix⟩ := passwordIsPeriodic_iff.mp hperiod
        exact hperiodic word n hne htwice hprefix

example : pvMasterPasswordIsAcceptable (literal "IloveyouILOVEYOU") = false ∧
    pvMasterPasswordIsAcceptable (literal "VWXYZabcdefghijklmn") = false ∧
    pvMasterPasswordIsAcceptable (literal "a longer sentence") = true := by decide +kernel

end PVault
