import PVault.Lib.Bytes

/-!
# Text (`src/util.c`)

`pv_utf8_valid`, the check every text field of a record goes through.
-/

namespace PVault

open Binary

/-- The bits of the code point in the first byte, and how many continuation bytes
follow; a byte that cannot start a sequence has none. -/
def utf8Lead (first : UInt8) : Option (UInt32 × Nat) :=
  if 0xc2 ≤ first ∧ first ≤ 0xdf then some ((first &&& 0x1f).toUInt32, 1)
  else if 0xe0 ≤ first ∧ first ≤ 0xef then some ((first &&& 0x0f).toUInt32, 2)
  else if 0xf0 ≤ first ∧ first ≤ 0xf4 then some ((first &&& 0x07).toUInt32, 3)
  else none

/-- The inner loop: six bits from every continuation byte. -/
def utf8Continue : UInt32 → Bytes → Option UInt32
  | codepoint, [] => some codepoint
  | codepoint, next :: rest =>
    if next &&& 0xc0 ≠ 0x80 then none
    else utf8Continue (codepoint <<< 6 ||| (next &&& 0x3f).toUInt32) rest

/-- The outer loop of `pv_utf8_valid`; a pass consumes at least one byte, so the length
of the text is enough fuel. -/
def utf8Loop : Nat → Bytes → Bool
  | _, [] => true
  | 0, _ :: _ => false
  | fuel + 1, first :: rest =>
    if first ≤ 0x7f then utf8Loop fuel rest
    else
      match utf8Lead first with
      | none => false
      | some (bits, continuation) =>
        if continuation > rest.length then false
        else
          match utf8Continue bits (rest.take continuation) with
          | none => false
          | some codepoint =>
            if (continuation = 2 ∧ codepoint < 0x800) ∨ (continuation = 3 ∧ codepoint < 0x10000) ∨
                codepoint > 0x10ffff ∨ (0xd800 ≤ codepoint ∧ codepoint ≤ 0xdfff) then false
            else utf8Loop fuel (rest.drop continuation)

/-- `pv_utf8_valid`. -/
def pvUtf8Valid (data : Bytes) : Bool := utf8Loop data.length data

end PVault
