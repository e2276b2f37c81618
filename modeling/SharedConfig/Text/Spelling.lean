/-!
# SharedConfig.Text.Spelling

Characters spelled byte by byte.  The first byte says how many more there are; the bytes may still
spell no character, because it has a shorter spelling or because there is none of that number.
-/

namespace SharedConfig

/-- A character of which some bytes are known. -/
structure Spelling where
  /-- The number of bytes that are to come. -/
  missing : Nat
  value : Nat
  /-- The least number that needs so many bytes. -/
  least : Nat
  deriving DecidableEq, Repr

namespace Spelling

def first? (byte : Nat) : Option Spelling :=
  if byte < 0x80 then some ⟨0, byte, 0⟩
  else if byte < 0xC0 then none
  else if byte < 0xE0 then some ⟨1, byte - 0xC0, 0x80⟩
  else if byte < 0xF0 then some ⟨2, byte - 0xE0, 0x800⟩
  else if byte < 0xF8 then some ⟨3, byte - 0xF0, 0x10000⟩
  else none

/-- The spelling with one more byte. -/
def more? (s : Spelling) (byte : Nat) : Option Spelling :=
  if 0x80 ≤ byte ∧ byte < 0xC0 then
    some ⟨s.missing - 1, s.value * 0x40 + (byte - 0x80), s.least⟩
  else none

/-- The spelling behind a byte, in the middle of a character or between two. -/
def next? (begun : Option Spelling) (byte : Nat) : Option Spelling :=
  match begun with
  | none => first? byte
  | some s => s.more? byte

/-- The character of a spelling that has all its bytes. -/
def char? (s : Spelling) : Option Char :=
  if s.least ≤ s.value ∧ s.value.isValidChar then some (Char.ofNat s.value) else none

end Spelling

end SharedConfig
