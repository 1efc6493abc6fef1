import StoryDocs.Command.Run

/-!
# The command line

The files that a run can see are loaded first, and those that it changed are written afterwards; all
decisions are made by `Command.run`.
-/

namespace StoryDocs
namespace Main

open Files

/-- The place that a path leads to from a directory, by its names alone. -/
def placeOf (directory : Place) (path : String) : Place :=
  let start := if path.toList.head? == some '/' then [] else directory
  (components path.toList).foldl
    (fun place name => if name == ['.', '.'] then place.dropLast else place ++ [name]) start

/-- The full path of a place. -/
def pathOf (place : Place) : String :=
  String.ofList (fullPath ['/'] place)

/-- Load a file, if there is one. -/
def loadFile (s : Store) (place : Place) : IO Store := do
  let path := (← IO.currentDir) / pathOf place
  if (← path.pathExists) && !(← path.isDir) then
    let bytes ← IO.FS.readBinFile path
    return s.put place (.file (Contents.ofBytes bytes.toList))
  else return s

/-- Load what is at a place: the names in a directory or, if `deep`, all that a walk through it sees. -/
partial def loadTree (s : Store) (place : Place) (deep : Bool) : IO Store := do
  let path := (← IO.currentDir) / pathOf place
  if ← path.isDir then
    let mut s := s.put place .directory
    for entry in ← path.readDir do
      let name := entry.fileName.toList
      let inner := place ++ [name]
      if ← entry.path.isDir then
        if deep && !Command.isSkipped name then s ← loadTree s inner deep
        else s := s.put inner .directory
      else if deep then s ← loadFile s inner
    return s
  else loadFile s place

/-- The files that decide about a style or a project, by name. -/
def configurationNames : List Name :=
  [".editorconfig".toList, Config.Project.fileName] ++ Layout.preferenceFiles.map Prod.fst

/-- Load all that a run with these arguments can see. -/
def load (directory : Place) (args : List String) : IO Store := do
  let mut s : Store := ({} : Store).put directory .directory
  for place in ancestors directory do
    for name in configurationNames do
      s ← loadFile s (place ++ [name])
  for arg in args do
    let place := placeOf directory arg
    s ← loadTree s place.dropLast false
    s ← loadTree s place true
  return s

/-- Write the files that a run has changed. -/
def save (before after : Store) : IO Unit := do
  for (place, contents) in after.files do
    if before.get? place != some (.file contents) then
      match contents with
      | .text s => IO.FS.writeFile (pathOf place) (String.ofList s)
      | .bytes b => IO.FS.writeBinFile (pathOf place) ⟨b.toArray⟩

end Main
end StoryDocs

/-- Run the command in the working directory. -/
def main (args : List String) : IO UInt32 := do
  let directory := StoryDocs.Files.components (toString (← IO.currentDir)).toList
  let files ← StoryDocs.Main.load directory args
  let outcome := StoryDocs.Command.run { files, directory, root := ['/'] } args
  StoryDocs.Main.save files outcome.files
  IO.print outcome.output
  IO.eprint outcome.errors
  return outcome.code.toUInt32
