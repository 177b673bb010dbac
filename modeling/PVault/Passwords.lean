import Mathlib.Data.List.FinRange
import PVault.Lib.Shuffle
import PVault.Lib.Bytes
import PVault.Status

/-!
# Generated passwords (`src/cli.c`)

`generate_password` draws one character of each class and fills the rest from all of them, then
shuffles, so that the four classes may be anywhere. What `randombytes_uniform` returned is a
parameter: any value below the bound it was asked for.

* `generatePassword_ok` — a password is the shuffled content.
* `generated_passwords_composed_and_unbiased` — every class is there, and no permutation of the
  positions is preferred.
-/

namespace PVault

open Binary Shuffle

/-! ## Characters -/

/-- `lower`: without `l`. -/
def lowerChars : Bytes :=
  [0x61, 0x62, 0x63, 0x64, 0x65, 0x66, 0x67, 0x68, 0x69, 0x6a, 0x6b, 0x6d, 0x6e, 0x6f, 0x70,
   0x71, 0x72, 0x73, 0x74, 0x75, 0x76, 0x77, 0x78, 0x79, 0x7a]

/-- `upper`: without `I` and `O`. -/
def upperChars : Bytes :=
  [0x41, 0x42, 0x43, 0x44, 0x45, 0x46, 0x47, 0x48, 0x4a, 0x4b, 0x4c, 0x4d, 0x4e, 0x50, 0x51,
   0x52, 0x53, 0x54, 0x55, 0x56, 0x57, 0x58, 0x59, 0x5a]

/-- `digits`: without `0` and `1`. -/
def digitChars : Bytes := [0x32, 0x33, 0x34, 0x35, 0x36, 0x37, 0x38, 0x39]

/-- `symbols`. -/
def symbolChars : Bytes :=
  [0x21, 0x23, 0x24, 0x25, 0x26, 0x28, 0x29, 0x2a, 0x2b, 0x2c, 0x2d, 0x2e, 0x2f, 0x3a, 0x3b,
   0x3c, 0x3d, 0x3e, 0x3f, 0x40, 0x5b, 0x5d, 0x5e, 0x5f, 0x7b, 0x7c, 0x7d, 0x7e]

/-- `all`. -/
def allChars : Bytes := lowerChars ++ upperChars ++ digitChars ++ symbolChars

/-! ## Generating -/

/-- What `randombytes_uniform` returned, call by call. -/
structure GenerateDraws where
  lower : Fin lowerChars.length
  upper : Fin upperChars.length
  digit : Fin digitChars.length
  symbol : Fin symbolChars.length
  /-- for each further character -/
  fill : Nat → Fin allChars.length
  /-- for each exchange of the shuffle -/
  swap : (i : Nat) → Fin (i + 1)

/-- The password before it is shuffled. -/
def passwordContent (length : Nat) (draws : GenerateDraws) : Bytes :=
  [lowerChars.get draws.lower, upperChars.get draws.upper, digitChars.get draws.digit,
    symbolChars.get draws.symbol] ++
    (List.range' 4 (length - 4)).map fun i => allChars.get (draws.fill i)

/-- `generate_password`. -/
def generatePassword (length : Nat) (mem : SecureAlloc) (draws : GenerateDraws) :
    Except PvStatus Bytes :=
  if length < 12 ∨ length > 256 then
    .error .errUsage
  else
    match mem with
    | .noMemory | .notLocked => .error .errSecureMemory
    | .allocated => .ok (shuffle draws.swap (length - 1) (passwordContent length draws))

/-! ## What comes out -/

section Content

variable {length : Nat} {draws : GenerateDraws}

theorem generatePassword_ok (hmin : 12 ≤ length) (hmax : length ≤ 256) :
    generatePassword length .allocated draws =
      .ok (shuffle draws.swap (length - 1) (passwordContent length draws)) := by
  rw [generatePassword, if_neg (by omega)]

theorem length_passwordContent (hmin : 12 ≤ length) :
    (passwordContent length draws).length = length := by
  rw [passwordContent, List.length_append, List.length_map, List.length_range']
  simp only [List.length_cons, List.length_nil]
  omega

/-- The content is in the declared alphabet. -/
theorem mem_allChars {b : UInt8} (h : b ∈ passwordContent length draws) : b ∈ allChars := by
  rcases List.mem_append.mp h with h | h
  · rw [allChars, List.mem_append, List.mem_append, List.mem_append]
    simp only [List.mem_cons, List.not_mem_nil, or_false] at h
    rcases h with rfl | rfl | rfl | rfl
    · exact .inl (.inl (.inl (List.get_mem _ _)))
    · exact .inl (.inl (.inr (List.get_mem _ _)))
    · exact .inl (.inr (List.get_mem _ _))
    · exact .inr (List.get_mem _ _)
  · obtain ⟨i, -, rfl⟩ := List.mem_map.mp h
    exact List.get_mem _ _

/-- The content, position by position. -/
theorem passwordContent_positions (hmin : 12 ≤ length) :
    passwordContent length draws = (List.finRange length).map
      fun p : Fin length => (passwordContent length draws).getD p.val 0 := by
  have hlen : (passwordContent length draws).length = length := length_passwordContent hmin
  refine List.ext_getElem (by rw [hlen, List.length_map, List.length_finRange]) fun k hk _ => ?_
  rw [List.getElem_map, List.getElem_finRange]
  exact (List.getD_eq_getElem _ _ hk).symm

end Content

theorem lower_range : ∀ b ∈ lowerChars, 0x61 ≤ b ∧ b ≤ 0x7a := by decide +kernel

theorem upper_range : ∀ b ∈ upperChars, 0x41 ≤ b ∧ b ≤ 0x5a := by decide +kernel

theorem digit_range : ∀ b ∈ digitChars, 0x30 ≤ b ∧ b ≤ 0x39 := by decide +kernel

/-- **Generated passwords are composed as promised, and the shuffle is unbiased**: for every length
and all draws the password has that length, is in the declared alphabet, and has a lower-case
letter, an upper-case letter, a digit and a symbol. It is the content with its positions permuted,
and each permutation of the positions comes from exactly one sequence of draws. -/
theorem generated_passwords_composed_and_unbiased :
    (∀ (length : Nat) (draws : GenerateDraws), 12 ≤ length → length ≤ 256 → ∃ password,
      generatePassword length .allocated draws = .ok password ∧ password.length = length ∧
      (∀ b ∈ password, b ∈ allChars) ∧
      (∃ b ∈ password, 0x61 ≤ b ∧ b ≤ 0x7a) ∧ (∃ b ∈ password, 0x41 ≤ b ∧ b ≤ 0x5a) ∧
      (∃ b ∈ password, 0x30 ≤ b ∧ b ≤ 0x39) ∧ (∃ b ∈ password, b ∈ symbolChars) ∧
      password = (shuffle draws.swap (length - 1) (List.finRange length)).map
        fun p : Fin length => (passwordContent length draws).getD p.val 0) ∧
    ∀ n, Function.Bijective fun draw : (k : Fin n) → Fin (k + 1) =>
      (⟨shuffle (extend draw) (n - 1) (List.finRange n), shuffle_perm _ _⟩ :
        { m : List (Fin n) // m.Perm (List.finRange n) }) := by
  refine ⟨fun length draws hmin hmax => ?_, fun n =>
    shuffle_bijective (List.length_finRange ..) (List.nodup_finRange n)⟩
  have hperm : (shuffle draws.swap (length - 1) (passwordContent length draws)).Perm
      (passwordContent length draws) := shuffle_perm _ _
  -- a character of the content is in the password
  have hthere : ∀ {b : UInt8} {P : UInt8 → Prop}, b ∈ passwordContent length draws → P b →
      ∃ b ∈ shuffle draws.swap (length - 1) (passwordContent length draws), P b :=
    fun hmem hP => ⟨_, hperm.mem_iff.mpr hmem, hP⟩
  refine ⟨_, generatePassword_ok hmin hmax, hperm.length_eq.trans (length_passwordContent hmin),
    fun b hb => mem_allChars (hperm.mem_iff.mp hb), ?_, ?_, ?_, ?_, ?_⟩
  · exact hthere (by simp [passwordContent]) (lower_range _ (List.get_mem _ draws.lower))
  · exact hthere (by simp [passwordContent]) (upper_range _ (List.get_mem _ draws.upper))
  · exact hthere (by simp [passwordContent]) (digit_range _ (List.get_mem _ draws.digit))
  · exact hthere (by simp [passwordContent]) (List.get_mem _ draws.symbol)
  · rw [← shuffle_map, ← passwordContent_positions hmin]

/-- The least draws there are, at the shortest length. -/
theorem generated_passwords_composed_at_twelve :
    let draws : GenerateDraws :=
      ⟨⟨0, by decide⟩, ⟨0, by decide⟩, ⟨0, by decide⟩, ⟨0, by decide⟩, fun _ => ⟨0, by decide⟩,
        fun _ => 0⟩
    ∃ password, generatePassword 12 .allocated draws = .ok password ∧ password.length = 12 ∧
      (∀ b ∈ password, b ∈ allChars) ∧
      (∃ b ∈ password, 0x61 ≤ b ∧ b ≤ 0x7a) ∧ (∃ b ∈ password, 0x41 ≤ b ∧ b ≤ 0x5a) ∧
      (∃ b ∈ password, 0x30 ≤ b ∧ b ≤ 0x39) ∧ (∃ b ∈ password, b ∈ symbolChars) ∧
      password = (shuffle draws.swap (12 - 1) (List.finRange 12)).map
        fun p : Fin 12 => (passwordContent 12 draws).getD p.val 0 :=
  generated_passwords_composed_and_unbiased.1 12 _ (by decide) (by decide)

end PVault
