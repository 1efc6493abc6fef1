/-!
# Digits

The numbers that digits stand for, and the characters that code points stand for.
-/

namespace StoryDocs
namespace Text

/-- The first number that does not fit into 64 bits. -/
def wordEnd : Nat :=
  Nat.pow 2 64

/-- The value of a hexadecimal digit. -/
def hexDigit? (c : Char) : Option Nat :=
  if '0' ≤ c && c ≤ '9' then some (c.toNat - '0'.toNat)
  else if 'a' ≤ c && c ≤ 'f' then some (c.toNat - 'a'.toNat + 10)
  else if 'A' ≤ c && c ≤ 'F' then some (c.toNat - 'A'.toNat + 10)
  else none

/-- The number that digits stand for in a base; characters that are no digits count as zeros. -/
def inBase (base : Nat) (digits : List Char) : Nat :=
  digits.foldl (fun n c => n * base + (hexDigit? c).getD 0) 0

/-- The number of a text of hexadecimal digits. -/
def hex? (digits : List Char) : Option Nat :=
  if digits.all fun c => (hexDigit? c).isSome then some (inBase 16 digits) else none

/-- The character of a code point that is no surrogate. -/
def scalar? (n : Nat) : Option Char :=
  if n < 0xD800 || (0xE000 ≤ n && n < 0x110000) then some (Char.ofNat n) else none

end Text
end StoryDocs
