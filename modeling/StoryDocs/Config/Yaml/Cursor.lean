/-!
# Cursors

A position in an indented configuration: the rest of the text, and the line, column and index at which
it starts.
-/

namespace StoryDocs
namespace Config
namespace Yaml

/-- The characters that end a line. -/
def isBreak (c : Char) : Bool :=
  c == '\n' || c == '\r' || c == '\u0085' || c == '\u2028' || c == '\u2029'

/-- A space or a tab. -/
def isSpace (c : Char) : Bool :=
  c == ' ' || c == '\t'

/-- Whether a text is empty or starts with a blank or a line end. -/
def atBlank : List Char → Bool
  | [] => true
  | c :: _ => isSpace c || isBreak c

/-- Whether a text is empty or starts with a line end. -/
def atBreak : List Char → Bool
  | [] => true
  | c :: _ => isBreak c

/-- Characters of names: ASCII letters and digits, the underscore and the hyphen. -/
def isWordChar (c : Char) : Bool :=
  c.isAlpha || c.isDigit || c == '_' || c == '-'

/-- Whether a character may occur in a configuration. -/
def isAllowed (c : Char) : Bool :=
  let n := c.toNat
  n == 0x09 || n == 0x0A || n == 0x0D || (0x20 ≤ n && n ≤ 0x7E) || n == 0x85 ||
    (0xA0 ≤ n && n ≤ 0xFFFD) || 0x10000 ≤ n

/-- The rest of a text and where it starts. -/
structure Cursor where
  rest : List Char
  line : Nat := 0
  column : Nat := 0
  index : Nat := 0
  deriving DecidableEq, Repr, Inhabited

namespace Cursor

/-- The first character. -/
def head? (c : Cursor) : Option Char :=
  c.rest.head?

/-- Move over characters of one line. -/
def advance (n : Nat) (c : Cursor) : Cursor :=
  { c with rest := c.rest.drop n, column := c.column + n, index := c.index + n }

/-- Move over the characters of a class, none of which ends a line. -/
def advanceWhile (p : Char → Bool) (c : Cursor) : Cursor :=
  c.advance (c.rest.takeWhile p).length

/-- Move over a line end and give the character that it counts as. -/
def breakLine? (c : Cursor) : Option (Char × Cursor) :=
  match c.rest with
  | '\r' :: '\n' :: s => some ('\n', ⟨s, c.line + 1, 0, c.index + 2⟩)
  | b :: s =>
    if isBreak b then
      some (if b == '\u2028' || b == '\u2029' then b else '\n', ⟨s, c.line + 1, 0, c.index + 1⟩)
    else none
  | [] => none

/-- Move over a line end, when there is one. -/
def passBreak (c : Cursor) : Cursor :=
  match c.breakLine? with
  | some (_, c) => c
  | none => c

/-- Whether a line of three marks begins here, the start or end of a document. -/
def atDocumentMark (c : Cursor) : Bool :=
  c.column == 0 &&
    match c.rest with
    | '-' :: '-' :: '-' :: s => atBlank s
    | '.' :: '.' :: '.' :: s => atBlank s
    | _ => false

end Cursor

/-- The blanks and line ends between two parts of a text that goes over several lines. -/
structure Gap where
  /-- The blanks in front of the first line end. -/
  spaces : List Char := []
  /-- The first line end. -/
  first : Option (List Char) := none
  /-- The line ends behind the first. -/
  later : List Char := []
  deriving DecidableEq, Repr, Inhabited

namespace Gap

/-- What a gap counts as: a line end is folded to a space, unless others follow it. -/
def fold (g : Gap) : List Char :=
  match g.first with
  | none => g.spaces
  | some first =>
    if first == ['\n'] then if g.later.isEmpty then [' '] else g.later
    else first ++ g.later

/-- Read on in a gap; a tab before column `indent` of a new line is refused, and `fuel` bounds the
length. -/
def read (indent : Int) : Nat → Gap → Cursor → Option (Gap × Cursor)
  | 0, _, _ => none
  | fuel + 1, g, c =>
    match c.rest with
    | [] => some (g, c)
    | b :: _ =>
      if isSpace b then
        if g.first.isNone then read indent fuel { g with spaces := g.spaces ++ [b] } (c.advance 1)
        else if b == '\t' && (c.column : Int) < indent then none
        else read indent fuel g (c.advance 1)
      else
        match c.breakLine? with
        | none => some (g, c)
        | some (b, c) =>
          if g.first.isNone then read indent fuel { g with first := some [b] } c
          else read indent fuel { g with later := g.later ++ [b] } c

end Gap
end Yaml
end Config
end StoryDocs
