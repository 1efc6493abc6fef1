/-!
# Replacing ranges of a text

Replacements are given in the order of the text and do not overlap; all that lies between them is kept.
-/

namespace StoryDocs
namespace Text

/-- A range of characters and what comes in its place. -/
structure Replacement where
  start : Nat
  stop : Nat
  text : List Char
  deriving DecidableEq, Repr

/-- Replace ranges in a text that starts at the given offset. -/
def spliceFrom : Nat → List Replacement → List Char → List Char
  | _, [], s => s
  | offset, r :: rs, s =>
    s.take (r.start - offset) ++ r.text ++ spliceFrom r.stop rs (s.drop (r.stop - offset))

/-- Replace ranges in a text. -/
def splice (rs : List Replacement) (s : List Char) : List Char :=
  spliceFrom 0 rs s

end Text
end StoryDocs
