/-!
# Command line arguments

What a migration is asked to do.
-/

namespace StoryDocs
namespace Command

/-- The arguments of a migration. -/
structure Arguments where
  /-- Files and directories. -/
  paths : List String := []
  /-- The name of the grammar. -/
  parser : Option String := none
  /-- The configuration file. -/
  config : Option String := none
  /-- Print the results instead of writing them. -/
  dryRun : Bool := false
  color : Bool := true
  deriving DecidableEq, Repr, Inhabited

/-- Why arguments are not understood. -/
inductive ArgumentError where
  | noParser
  | noConfig
  | unknownFlag (flag : String)
  | noPaths
  deriving DecidableEq, Repr, Inhabited

/-- The error as it is shown. -/
def ArgumentError.message : ArgumentError → String
  | noParser => "--parser requires a value (tsx, ts, babel, flow or js)"
  | noConfig => "--config requires a value"
  | unknownFlag flag => "Unknown flag: " ++ flag
  | noPaths => "Usage: storyweld migrate [--parser <name>] [--dry-run] <path>..."

namespace Arguments

/-- Take over arguments one after the other. -/
def read (a : Arguments) : List String → Except ArgumentError Arguments
  | [] => .ok a
  | arg :: rest =>
    if arg == "--parser" || arg == "-p" then
      match rest with
      | value :: rest => read { a with parser := some value } rest
      | [] => .error .noParser
    else if arg == "--config" || arg == "-c" then
      match rest with
      | value :: rest => read { a with config := some value } rest
      | [] => .error .noConfig
    else if arg == "--dry-run" then read { a with dryRun := true } rest
    else if arg == "--no-color" then read { a with color := false } rest
    else if arg.toList.head? == some '-' then .error (.unknownFlag arg)
    else read { a with paths := a.paths ++ [arg] } rest

/-- Read the arguments of a migration; there has to be a path. -/
def parse (args : List String) : Except ArgumentError Arguments := do
  let a ← read {} args
  if a.paths.isEmpty then throw .noPaths
  return a

end Arguments
end Command
end StoryDocs
