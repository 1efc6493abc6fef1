import StoryDocs.Text.Blank
import StoryDocs.Text.Line
import StoryDocs.Text.Slice

/-!
# Dedenting

Code that was cut out of a document keeps the indentation it had there on all lines but the first.  The
indentation that these lines share, measured in bytes, is removed.
-/

namespace StoryDocs
namespace Text

/-- The indentation of a line in bytes. -/
def indentSize (line : List Char) : Nat :=
  byteSize (line.takeWhile isBlank)

/-- The least indentation among lines that are not blank. -/
def sharedIndent (ls : List (List Char)) : Nat :=
  ((ls.filter fun l => !allBlank l).map indentSize).min?.getD 0

/-- The text behind the first `n` bytes; empty if these end inside a character or behind the text. -/
def dropBytes : Nat → List Char → List Char
  | 0, s => s
  | _ + 1, [] => []
  | n + 1, c :: s => if c.utf8Size ≤ n + 1 then dropBytes (n + 1 - c.utf8Size) s else []

/-- Remove the shared indentation from all lines but the first, and the blanks at their ends. -/
def dedent (text : List Char) : List Char :=
  match lines text with
  | [] => []
  | first :: rest =>
    unlines (first :: rest.map fun l => trimEnd (dropBytes (sharedIndent rest) l))

end Text
end StoryDocs
