import StoryDocs.Files.Store

/-!
# Collecting documentation files

A path names a file, which is taken as it is, or a directory, which stands for the documentation files
below it.
-/

namespace StoryDocs
namespace Command

open Files

/-- Whether a directory below the one that was asked for is passed over. -/
def isSkipped (name : Name) : Bool :=
  name.head? == some '.' || name == "node_modules".toList

/-- Whether a name is that of a documentation file. -/
def isDocumentation (name : Name) : Bool :=
  nameExtension? name == some "mdx".toList

/-- Whether the names that lead from a directory to a file make it one of its documentation files. -/
def isCollected (names : Place) : Bool :=
  match names.getLast? with
  | some name => isDocumentation name && !names.dropLast.any isSkipped
  | none => false

/-- The documentation files below a directory, as the names that lead to them, in the order of a walk. -/
def documentsBelow (s : Store) (directory : Place) : List Place :=
  s.files.filterMap fun (place, _) => (below? directory place).filter isCollected

/-- The files that a path stands for, or nothing if it leads nowhere. -/
def expand? (s : Store) (directory : Place) (path : List Char) : Option (List (List Char)) :=
  match s.locate directory path with
  | .error _ => none
  | .ok place =>
    match s.get? place with
    | some (.file _) => some [path]
    | some .directory => some ((documentsBelow s place).map fun names => names.foldl join path)
    | none => none

/-- The files that paths stand for; fails with the first path that leads nowhere. -/
def collect (s : Store) (directory : Place) : List (List Char) → Except (List Char) (List (List Char))
  | [] => .ok []
  | path :: paths =>
    match expand? s directory path with
    | none => .error path
    | some files => (collect s directory paths).map (files ++ ·)

end Command
end StoryDocs
