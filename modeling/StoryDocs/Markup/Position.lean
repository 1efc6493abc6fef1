import StoryDocs.Text.Blank

/-!
# Positions

Where a character stands in a document: line and column count from one, the offset counts bytes.
-/

namespace StoryDocs
namespace Markup

/-- A place in the source. -/
structure Position where
  line : Nat
  column : Nat
  /-- The offset in UTF-8 bytes. -/
  offset : Nat
  deriving DecidableEq, Repr, Inhabited

namespace Position

/-- The start of a document. -/
def start : Position := ⟨1, 1, 0⟩

/-- The position of nodes that were not read from a document. -/
def nowhere : Position := ⟨0, 0, 0⟩

/-- The position behind a character. -/
def advance (p : Position) (c : Char) : Position :=
  if c == '\n' then ⟨p.line + 1, 1, p.offset + c.utf8Size⟩
  else ⟨p.line, p.column + 1, p.offset + c.utf8Size⟩

/-- The position behind a text. -/
def after (p : Position) (s : List Char) : Position :=
  s.foldl advance p

/-- A position as it is shown. -/
def render (p : Position) : String :=
  s!"{p.line}:{p.column}"

end Position

/-- A position, and whether only spaces and tabs stand before it on its line. -/
structure Place where
  position : Position
  indented : Bool
  deriving DecidableEq, Repr, Inhabited

namespace Place

/-- The start of a document. -/
def start : Place := ⟨.start, true⟩

/-- The place behind a character. -/
def advance (p : Place) (c : Char) : Place :=
  ⟨p.position.advance c, c == '\n' || (p.indented && Text.isIndent c)⟩

/-- The place behind a text. -/
def after (p : Place) (s : List Char) : Place :=
  s.foldl advance p

/-- Whether a line starts here. -/
def startsLine (p : Place) : Bool :=
  p.position.column == 1

end Place
end Markup
end StoryDocs
