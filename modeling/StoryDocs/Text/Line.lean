/-!
# Lines

A text is cut at its line feeds in two ways: into pieces, which join back to the text, and into lines,
which lose their line ends and a carriage return before one.
-/

namespace StoryDocs
namespace Text

/-- Cut a text at every line feed; `n` line feeds give `n + 1` pieces. -/
def pieces : List Char → List (List Char)
  | [] => [[]]
  | c :: s =>
    if c == '\n' then [] :: pieces s
    else
      match pieces s with
      | [] => [[c]]
      | p :: ps => (c :: p) :: ps

/-- Drop one carriage return from the end of a line. -/
def dropReturn : List Char → List Char
  | [] => []
  | [c] => if c == '\r' then [] else [c]
  | c :: s => c :: dropReturn s

/-- The lines among the pieces between line feeds: a line feed ends a line, together with a carriage
return before it, and nothing after the last line feed is no line. -/
def terminated : List (List Char) → List (List Char)
  | [] => []
  | [last] => if last.isEmpty then [] else [last]
  | p :: ps => dropReturn p :: terminated ps

/-- The lines of a text, without their line ends. -/
def lines (s : List Char) : List (List Char) :=
  terminated (pieces s)

/-- Join lines with line feeds. -/
def unlines : List (List Char) → List Char
  | [] => []
  | [l] => l
  | l :: ls => l ++ '\n' :: unlines ls

end Text
end StoryDocs
