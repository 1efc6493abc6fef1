/-!
# Blank characters

Two classes of blank characters are in use: the Unicode property `White_Space`, which decides what is
trimmed from prose and code, and its five ASCII members between which tags are laid out.  A text is a
`List Char`, and trimming is a recursion on it.
-/

namespace StoryDocs
namespace Text

/-- The characters of the Unicode property `White_Space`. -/
def isBlank (c : Char) : Bool :=
  let n := c.toNat
  n == 0x20 || (0x09 ≤ n && n ≤ 0x0D) || n == 0x85 || n == 0xA0 || n == 0x1680 ||
    (0x2000 ≤ n && n ≤ 0x200A) || n == 0x2028 || n == 0x2029 || n == 0x202F || n == 0x205F ||
    n == 0x3000

/-- Space, tab, line feed, form feed and carriage return. -/
def isAsciiBlank (c : Char) : Bool :=
  c == ' ' || c == '\t' || c == '\n' || c == '\x0c' || c == '\r'

/-- A space or a tab. -/
def isIndent (c : Char) : Bool :=
  c == ' ' || c == '\t'

/-- An ASCII letter or digit. -/
def isAsciiAlphanumeric (c : Char) : Bool :=
  c.isAlpha || c.isDigit

/-- Drop the blanks at the start. -/
def trimStart (s : List Char) : List Char :=
  s.dropWhile isBlank

/-- Drop the longest tail of characters in the class `p`. -/
def dropTail (p : Char → Bool) : List Char → List Char
  | [] => []
  | c :: s =>
    match dropTail p s with
    | [] => if p c then [] else [c]
    | rest => c :: rest

/-- Drop the blanks at the end. -/
def trimEnd (s : List Char) : List Char :=
  dropTail isBlank s

/-- Drop the blanks at both ends. -/
def trim (s : List Char) : List Char :=
  trimEnd (trimStart s)

/-- Whether a text holds nothing but blanks. -/
def allBlank (s : List Char) : Bool :=
  s.all isBlank

end Text
end StoryDocs
