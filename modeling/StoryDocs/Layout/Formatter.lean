import StoryDocs.Files.Path
import StoryDocs.Layout.Literal
import StoryDocs.Layout.Quote
import StoryDocs.Layout.Style
import StoryDocs.Script.Error
import StoryDocs.Script.Module
import StoryDocs.Text.Line
import StoryDocs.Text.Splice

/-!
# Formatting

A module is laid out line by line: strings get the preferred quotes, commas in front of a closing line
are dropped if the style wants none, indentation is scaled, and runs of blank lines become one.  Lines
that start inside a literal keep their text.
-/

namespace StoryDocs
namespace Layout

open Text

/-- A line and whether it starts inside a literal. -/
structure Line where
  text : List Char
  verbatim : Bool
  deriving DecidableEq, Repr, Inhabited

/-- The spaces of one level of indentation in synthesized text. -/
def sourceIndent : Nat := 2

/-- The replacement of a string in a line that starts at `offset`. -/
def requoteIn (style : Style) (line : List Char) (offset : Nat) (s : Script.Span) :
    Replacement :=
  let start := s.start - offset
  let stop := s.stop - offset
  let raw := (line.drop start).take (stop - start)
  let content := (raw.drop 1).take (raw.length - 2)
  ⟨start, stop, requote content (raw.headD '\x27') style.singleQuote⟩

/-- Give the strings of a line that starts at `offset` the preferred quotes. -/
def requoteLine (style : Style) (line : List Char) (offset : Nat) (strings : List Script.Span) :
    List Char :=
  splice (strings.map (requoteIn style line offset)) line

/-- Requote the lines of a text that starts at `offset`; the strings are in the order of the text. -/
def requoteLines (style : Style) (literals : Literals) :
    List (List Char) → Nat → List Script.Span → List Line
  | [], _, _ => []
  | line :: rest, offset, strings =>
    let stop := offset + line.length
    let here := strings.takeWhile fun s => s.start < stop
    ⟨requoteLine style line offset here, literals.isVerbatimLine offset⟩ ::
      requoteLines style literals rest (stop + 1) (strings.drop here.length)

/-- Whether a text starts with a closing bracket. -/
def startsClosing (text : List Char) : Bool :=
  match trimStart text with
  | c :: _ => c == '\x7d' || c == ']' || c == ')'
  | [] => false

/-- Whether the next line that is not blank closes a bracket. -/
def closesNext (rest : List Line) : Bool :=
  match rest.find? fun l => !allBlank l.text with
  | some l => !l.verbatim && startsClosing l.text
  | none => false

/-- Drop the comma at the end of a line, if there is one. -/
def dropComma (text : List Char) : Option (List Char) :=
  dropTrail? [','] (trimEnd text)

/-- Drop the commas in front of closing lines. -/
def dropCommas : List Line → List Line
  | [] => []
  | l :: rest =>
    (match dropComma l.text with
      | some cut => if !l.verbatim && closesNext rest then { l with text := cut } else l
      | none => l) ::
      dropCommas rest

/-- Scale the indentation of a line and drop the blanks at its end. -/
def reindent (style : Style) (line : List Char) : List Char :=
  let content := line.dropWhile (· == ' ')
  let spaces := line.length - content.length
  let level := spaces / sourceIndent
  let rest := spaces % sourceIndent
  let indent :=
    if style.useTabs then List.replicate level '\t' ++ List.replicate rest ' '
    else List.replicate (level * style.tabWidth + rest) ' '
  indent ++ trimEnd content

/-- Lay out a line behind the lines written so far, the last of which comes first. -/
def layLine (style : Style) (written : List (List Char)) (l : Line) : List (List Char) :=
  if l.verbatim then l.text :: written
  else if allBlank l.text then
    match written with
    | [] => []
    | [] :: _ :: _ => written
    | _ => [] :: written
  else reindent style l.text :: written

/-- Drop the empty lines in front of others, down to a line that is all there is. -/
def dropEmpty : List (List Char) → List (List Char)
  | [] :: l :: written => dropEmpty (l :: written)
  | written => written

/-- Lay out lines and end the text with one line feed. -/
def layLines (style : Style) (ls : List Line) : List Char :=
  (dropEmpty (ls.foldl (layLine style) [])).reverse.flatMap (· ++ ['\n'])

/-- Lay out a text whose literals are known. -/
def layText (style : Style) (literals : Literals) (text : List Char) : List Char :=
  let ls := requoteLines style literals (pieces text) 0 literals.strings
  let ls := if style.trailingComma == .never then dropCommas ls else ls
  layLines style ls

/-- The grammar that a file name asks for. -/
def featuresOf (path : List Char) : Script.Features :=
  match (Files.extension? path).map fun e => String.ofList (asciiLower e) with
  | some "tsx" => { types := true, tags := true }
  | some "ts" => { types := true, tags := false }
  | some "mts" => { types := true, tags := false, guarded := true }
  | some "cts" => { types := true, tags := false, guarded := true }
  | some "jsx" => { types := false, tags := true }
  | _ => { types := false, tags := false }

/-- Format a module that is written to `path`. -/
def format (style : Style) (text : List Char) (path : List Char) : Except Script.Error (List Char) :=
  match Script.Module.parse? (featuresOf path) text with
  | none => .error ⟨String.ofList path, .rejected⟩
  | some items => .ok (layText style (Literals.ofModule text items) text)

end Layout
end StoryDocs
