/-!
# Diagnostics

Remarks about what was handled on the author's behalf.  They do not stop the migration; each has a code,
a severity and, where it is known, a place.
-/

namespace StoryDocs

/-- How much a remark matters. -/
inductive Severity where
  /-- The output differs from what the author probably meant. -/
  | warning
  | info
  deriving DecidableEq, Repr, Inhabited

/-- The name of a severity. -/
def Severity.name : Severity → String
  | warning => "warning"
  | info => "info"

namespace Diagnostic

/-- What a remark is about. -/
inductive Code where
  /-- A story without a literal name was removed. -/
  | unnamedStory
  /-- Two stories have the same exported name, and the later one wins. -/
  | duplicateStory
  /-- Children of a story behind the first were ignored. -/
  | extraStoryChildren
  /-- The body of a story is prose and gives no render function. -/
  | proseStoryBody
  /-- There is no metadata element. -/
  | missingMeta
  /-- There are several metadata elements, and their attributes were merged. -/
  | multipleMeta
  /-- A derived name is no identifier. -/
  | invalidIdentifier
  /-- An export could not be carried into the story module. -/
  | droppedExport
  /-- The story module could not be read and was left unformatted. -/
  | unformattedModule
  deriving DecidableEq, Repr, Inhabited

namespace Code

/-- All codes in order. -/
def all : List Code :=
  [unnamedStory, duplicateStory, extraStoryChildren, proseStoryBody, missingMeta, multipleMeta,
    invalidIdentifier, droppedExport, unformattedModule]

/-- The short form of a code. -/
def label : Code → String
  | unnamedStory => "SW001"
  | duplicateStory => "SW002"
  | extraStoryChildren => "SW003"
  | proseStoryBody => "SW004"
  | missingMeta => "SW005"
  | multipleMeta => "SW006"
  | invalidIdentifier => "SW007"
  | droppedExport => "SW008"
  | unformattedModule => "SW009"

/-- The severity that a code has by default. -/
def severity : Code → Severity
  | proseStoryBody => .info
  | droppedExport => .info
  | _ => .warning

end Code
end Diagnostic

/-- A remark with its place. -/
structure Diagnostic where
  code : Diagnostic.Code
  severity : Severity := code.severity
  message : String
  file : Option String := none
  line : Option Nat := none
  column : Option Nat := none
  deriving DecidableEq, Repr, Inhabited

namespace Diagnostic

/-- The place of a remark as it is shown in front of it. -/
def location (d : Diagnostic) : String :=
  match d.file, d.line, d.column with
  | some file, some line, some column => s!"{file}:{line}:{column}: "
  | some file, some line, none => s!"{file}:{line}: "
  | some file, none, _ => s!"{file}: "
  | none, some line, some column => s!"{line}:{column}: "
  | none, _, _ => ""

/-- A remark as it is shown. -/
def render (d : Diagnostic) : String :=
  d.location ++ d.severity.name ++ "[" ++ d.code.label ++ "]: " ++ d.message

/-- The remark with a file, unless it names one already. -/
def stamp (file : Option String) (d : Diagnostic) : Diagnostic :=
  { d with file := d.file.or file }

/-- How many warnings are among the remarks. -/
def warningCount (ds : List Diagnostic) : Nat :=
  (ds.filter fun d => d.severity == .warning).length

end Diagnostic
end StoryDocs
