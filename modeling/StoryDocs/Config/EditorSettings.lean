import StoryDocs.Text.Blank
import StoryDocs.Text.Digit
import StoryDocs.Text.Line
import StoryDocs.Text.Slice

/-!
# Editor settings

An editor configuration is a list of sections, each headed by a pattern of file names.  The sections
for script files set the indentation, and a later setting takes the place of an earlier one.
-/

namespace StoryDocs
namespace Config

open Text

/-- The indentation that an editor configuration asks for. -/
structure EditorSettings where
  useTabs : Option Bool := none
  indentSize : Option Nat := none
  deriving DecidableEq, Repr, Inhabited

/-- The number of a text of decimal digits, possibly behind a plus, that fits into 64 bits. -/
def word? (s : List Char) : Option Nat :=
  let digits := match s with
    | '+' :: rest => rest
    | _ => s
  if !digits.isEmpty && digits.all Char.isDigit && inBase 10 digits < wordEnd then
    some (inBase 10 digits)
  else none

/-- What a line of an editor configuration is. -/
inductive EditorLine where
  /-- An empty line, a comment or anything else without a meaning. -/
  | other
  | heading (header : List Char)
  | setting (key value : List Char)
  deriving DecidableEq, Repr, Inhabited

namespace EditorLine

/-- The text of a section header between its brackets. -/
def header? (line : List Char) : Option (List Char) :=
  (dropLead? ['['] line).bind (dropTrail? [']'])

/-- Read a line; keys and values are trimmed and in lower case. -/
def ofText (text : List Char) : EditorLine :=
  let line := trim text
  if line.isEmpty || startsWith ['#'] line || startsWith [';'] line then other
  else
    match header? line with
    | some header => .heading header
    | none =>
      match find? ['='] line with
      | some n => setting (asciiLower (trim (line.take n))) (asciiLower (trim (line.drop (n + 1))))
      | none => other

end EditorLine

namespace EditorSettings

/-- The names of script file extensions. -/
def scriptNames : List (List Char) :=
  [['t', 's'], ['t', 's', 'x'], ['j', 's'], ['j', 's', 'x']]

/-- Whether the section under a header is about script files: its pattern is a star, or starts with
one and mentions a script extension. -/
def applies (header : List Char) : Bool :=
  header == ['*'] ||
    scriptNames.any fun name => contains name header && startsWith ['*'] header

/-- Take over one setting. -/
def set (settings : EditorSettings) (key value : List Char) : EditorSettings :=
  match String.ofList key with
  | "indent_style" => { settings with useTabs := some (value == ['t', 'a', 'b']) }
  | "indent_size" => { settings with indentSize := (word? value).or settings.indentSize }
  | "tab_width" => { settings with indentSize := (word? value).or settings.indentSize }
  | _ => settings

/-- Take over the lines of a configuration; `active` tells whether the section at hand applies. -/
def apply : Bool → EditorSettings → List EditorLine → EditorSettings
  | _, settings, [] => settings
  | active, settings, line :: rest =>
    match line with
    | .other => apply active settings rest
    | .heading header => apply (applies header) settings rest
    | .setting key value =>
      apply active (if active then settings.set key value else settings) rest

/-- Read an editor configuration. -/
def parse (text : List Char) : EditorSettings :=
  apply false {} ((lines text).map EditorLine.ofText)

end EditorSettings
end Config
end StoryDocs
