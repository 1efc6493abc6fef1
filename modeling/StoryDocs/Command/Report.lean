import StoryDocs.Diagnostic

/-!
# Reports

The lines that a run shows about its files, with the word that matters in colour.
-/

namespace StoryDocs
namespace Command

/-- The colours of a report. -/
inductive Color where
  | red
  | green
  | yellow
  | cyan
  deriving DecidableEq, Repr, Inhabited

namespace Color

/-- The terminal's number of a colour. -/
def code : Color → String
  | red => "31"
  | green => "32"
  | yellow => "33"
  | cyan => "36"

/-- A word in bold and in colour, if colours are wanted. -/
def paint (wanted : Bool) (color : Color) (word : String) : String :=
  if wanted then "\x1b[0m\x1b[1m\x1b[" ++ color.code ++ "m" ++ word ++ "\x1b[0m" else word

/-- The colour of a remark. -/
def ofSeverity : Severity → Color
  | .warning => yellow
  | .info => cyan

end Color

/-- What came of the files of a run. -/
structure Summary where
  migrated : Nat := 0
  failed : Nat := 0
  warnings : Nat := 0
  deriving DecidableEq, Repr, Inhabited

namespace Summary

/-- The colour of a summary: the worst that happened decides. -/
def color (s : Summary) : Color :=
  if 0 < s.failed then .red else if 0 < s.warnings then .yellow else .green

/-- The closing line of a run. -/
def line (color : Bool) (s : Summary) : String :=
  "\n" ++ s.color.paint color "Migration complete" ++ ": " ++ toString s.migrated ++ " migrated, " ++
    toString s.failed ++ " failed, " ++ toString s.warnings ++ " warnings\n"

end Summary

/-- The place of a remark in a report: line and column are shown only together. -/
def placeOf (d : Diagnostic) : String :=
  match d.file with
  | none => ""
  | some file =>
    match d.line, d.column with
    | some line, some column => s!"{file}:{line}:{column}: "
    | _, _ => file ++ ": "

/-- The line of a remark. -/
def remarkLine (color : Bool) (d : Diagnostic) : String :=
  placeOf d ++
    (Color.ofSeverity d.severity).paint color (d.severity.name ++ "[" ++ d.code.label ++ "]") ++ ": " ++
    d.message ++ "\n"

/-- The line of a file that could not be migrated. -/
def failureLine (color : Bool) (file message : String) : String :=
  file ++ ": " ++ Color.red.paint color "error" ++ ": " ++ message ++ "\n"

end Command
end StoryDocs
