/-!
# Parts of a text

Look for a given text at the start, at the end or anywhere in another one.
-/

namespace StoryDocs
namespace Text

/-- The rest of `s` behind `lead`, when `s` starts with it. -/
def dropLead? : List Char → List Char → Option (List Char)
  | [], s => some s
  | _ :: _, [] => none
  | a :: lead, c :: s => if a == c then dropLead? lead s else none

/-- Whether `s` starts with `lead`. -/
def startsWith (lead s : List Char) : Bool :=
  (dropLead? lead s).isSome

/-- The text in front of `tail`, when `s` ends with it. -/
def dropTrail? (tail s : List Char) : Option (List Char) :=
  (dropLead? tail.reverse s.reverse).map List.reverse

/-- Whether `part` occurs in a text. -/
def contains (part : List Char) : List Char → Bool
  | [] => part.isEmpty
  | c :: s => startsWith part (c :: s) || contains part s

/-- How many characters come before the first occurrence of `part`. -/
def find? (part : List Char) : List Char → Option Nat
  | [] => if part.isEmpty then some 0 else none
  | c :: s => if startsWith part (c :: s) then some 0 else (find? part s).map (· + 1)

/-- The size of a text in UTF-8 bytes. -/
def byteSize : List Char → Nat
  | [] => 0
  | c :: s => c.utf8Size + byteSize s

/-- Fold ASCII letters to lower case. -/
def asciiLower (s : List Char) : List Char :=
  s.map Char.toLower

end Text
end StoryDocs
