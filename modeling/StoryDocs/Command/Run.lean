import StoryDocs.Command.Arguments
import StoryDocs.Command.Collection
import StoryDocs.Command.Report
import StoryDocs.Config.Project
import StoryDocs.Layout.Discovery

/-!
# Runs

A run of the command is a function of its arguments and of the files it finds; it gives the files that it
leaves, what it prints and its exit code.
-/

namespace StoryDocs
namespace Command

open Files

/-- Where a run takes place. -/
structure Setting where
  files : Store
  /-- The working directory. -/
  directory : Place := []
  /-- How the root is written in full paths. -/
  root : List Char := []
  deriving Repr, Inhabited

/-- What a run leaves behind. -/
structure Outcome where
  code : Nat := 0
  output : String := ""
  errors : String := ""
  files : Store
  deriving Repr, Inhabited

/-- Why a file could not be migrated. -/
inductive FileError where
  | unreadable (path : List Char) (fault : Fault)
  | unmigrated (error : MigrationError)
  | unwritable (path : List Char) (fault : Fault)
  deriving DecidableEq, Repr, Inhabited

/-- The error with its cause, as it is shown. -/
def FileError.message : FileError → String
  | unreadable path fault => "Failed to read " ++ String.ofList path ++ ": " ++ fault.message
  | unmigrated (.markup e) => (MigrationError.markup e).message ++ ": " ++ e.message
  | unmigrated (.script e) => e.message
  | unwritable path fault => "Failed to write " ++ String.ofList path ++ ": " ++ fault.message

/-- The text of the file that a path leads to. -/
def readPath (s : Store) (directory : Place) (path : List Char) : Except Fault (List Char) := do
  s.read (← s.locate directory path)

/-- Write a text to the file that a path leads to. -/
def writePath (s : Store) (directory : Place) (path text : List Char) : Except Fault Store := do
  s.write (← s.locate directory path) text

/-- Write the two files of a migration, the documentation first. -/
def writeResults (s : Store) (directory : Place) (path : List Char) (m : Migrated) :
    Except FileError Migrated × Store :=
  match writePath s directory path m.documentation with
  | .error fault => (.error (.unwritable path fault), s)
  | .ok s =>
    let modulePath := sibling path m.fileName
    match writePath s directory modulePath m.module with
    | .error fault => (.error (.unwritable modulePath fault), s)
    | .ok s => (.ok m, s)

/-- Migrate the file that a path leads to, and write the results unless the run is dry. -/
def migrateFile (o : Options) (dryRun : Bool) (directory : Place) (path : List Char) (s : Store) :
    Except FileError Migrated × Store :=
  match readPath s directory path with
  | .error fault => (.error (.unreadable path fault), s)
  | .ok source =>
    match Migration.run o source path with
    | .error e => (.error (.unmigrated e), s)
    | .ok m => if dryRun then (.ok m, s) else writeResults s directory path m

/-- What a dry run prints about a file. -/
def preview (path : List Char) (m : Migrated) : String :=
  "// " ++ String.ofList path ++ "\n" ++ String.ofList m.documentation ++ "\n// " ++
    String.ofList (sibling path m.fileName) ++ "\n" ++ String.ofList m.module ++ "\n"

/-- The state of a run between two files. -/
structure Progress where
  files : Store
  output : String := ""
  errors : String := ""
  summary : Summary := {}
  deriving Repr, Inhabited

namespace Progress

/-- Migrate the next file. -/
def step (o : Options) (a : Arguments) (directory : Place) (p : Progress) (path : List Char) :
    Progress :=
  match migrateFile o a.dryRun directory path p.files with
  | (.ok m, files) =>
    { files := files
      output := p.output ++ (if a.dryRun then preview path m else "")
      errors := m.diagnostics.foldl (fun out d => out ++ remarkLine a.color d) p.errors
      summary := { p.summary with
        migrated := p.summary.migrated + 1, warnings := p.summary.warnings + m.warnings } }
  | (.error e, files) =>
    { p with
      files := files
      errors := p.errors ++ failureLine a.color (String.ofList path) e.message
      summary := { p.summary with failed := p.summary.failed + 1 } }

/-- Migrate files one after the other. -/
def run (o : Options) (a : Arguments) (directory : Place) (p : Progress) (paths : List (List Char)) :
    Progress :=
  paths.foldl (step o a directory) p

end Progress

/-- What ends a run with an error. -/
inductive Fatal where
  | arguments (error : ArgumentError)
  | unreadableConfig (path : List Char) (fault : Fault)
  | malformedConfig (path : List Char)
  | unknownParser (name : String)
  | notFound (path : List Char)
  | nothingFound
  | failures (count : Nat)
  deriving DecidableEq, Repr, Inhabited

/-- The error as it is shown. -/
def Fatal.message : Fatal → String
  | arguments e => e.message
  | unreadableConfig path fault =>
    "Failed to read " ++ String.ofList path ++ "\n\nCaused by:\n    " ++ fault.message
  | malformedConfig path => "Invalid configuration in " ++ String.ofList path
  | unknownParser name => "Configuration error: " ++ Dialect.unknownName name
  | notFound path => "Path not found: " ++ String.ofList path
  | nothingFound => "No .mdx files found"
  | failures count => toString count ++ " file(s) could not be migrated"

/-- The settings in the file at a place. -/
def loadProject (s : Store) (place : Except Fault Place) (path : List Char) :
    Except Fatal Config.Project :=
  match place.bind s.read with
  | .error fault => .error (.unreadableConfig path fault)
  | .ok text =>
    match Config.Project.parse? text with
    | some project => .ok project
    | none => .error (.malformedConfig path)

/-- The settings of the file that was asked for, or of the one in the working directory. -/
def findProject (w : Setting) (asked : Option String) : Except Fatal Config.Project :=
  match asked with
  | some path => loadProject w.files (w.files.locate w.directory path.toList) path.toList
  | none =>
    let place := w.directory ++ [Config.Project.fileName]
    if w.files.isFile place then loadProject w.files (.ok place) (fullPath w.root place)
    else .ok {}

/-- The options of a run. -/
def findOptions (w : Setting) (a : Arguments) : Except Fatal Options := do
  let project ← findProject w a.config
  (project.options a.parser (Layout.styleFor w.files w.directory)).mapError .unknownParser

/-- The files that a run is about; there has to be one. -/
def findFiles (w : Setting) (a : Arguments) : Except Fatal (List (List Char)) := do
  let paths ← (collect w.files w.directory (a.paths.map String.toList)).mapError .notFound
  if paths.isEmpty then throw .nothingFound
  return paths

/-- Everything that has to be right before the first file is migrated. -/
def prepare (w : Setting) (args : List String) :
    Except Fatal (Arguments × Options × List (List Char)) := do
  let a ← (Arguments.parse args).mapError .arguments
  let o ← findOptions w a
  let paths ← findFiles w a
  return (a, o, paths)

/-- The line of an error that ends a run. -/
def fatalLine (e : Fatal) : String :=
  "Error: " ++ e.message ++ "\n"

/-- Migrate what the arguments name. -/
def migrate (w : Setting) (args : List String) : Outcome :=
  match prepare w args with
  | .error e => { code := 1, errors := fatalLine e, files := w.files }
  | .ok (a, o, paths) =>
    let p := Progress.run o a w.directory { files := w.files } paths
    let errors := p.errors ++ p.summary.line a.color
    if 0 < p.summary.failed then
      { code := 1
        output := p.output
        errors := errors ++ fatalLine (.failures p.summary.failed)
        files := p.files }
    else { output := p.output, errors := errors, files := p.files }

/-- The lines that tell how the command is used. -/
def usageLines : List String :=
  ["storyweld <migrate> [options] <path>...",
    "",
    "Commands:",
    "  migrate <path>...              Split .mdx story docs into docs + CSF modules",
    "",
    "Migrate options:",
    "  --parser, -p <name>            Script grammar: tsx (default), ts, babel, flow, js",
    "  --config, -c <file>            Configuration file (default: ./storyweld.toml)",
    "  --dry-run                      Print the results instead of writing them",
    "  --no-color                     Disable colored diagnostics",
    "",
    "Directories are searched for .mdx files. Set STORYWELD_LOG to change",
    "the log level (default: info)."]

/-- How the command is used. -/
def usage : String :=
  String.join (usageLines.map (· ++ "\n"))

/-- Run the command; without a known first argument it only shows how it is used. -/
def run (w : Setting) : List String → Outcome
  | command :: args =>
    if command == "migrate" || command == "mdx-to-csf" then migrate w args
    else { errors := usage, files := w.files }
  | [] => { errors := usage, files := w.files }

end Command
end StoryDocs
