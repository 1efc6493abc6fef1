import StoryDocs.Text.Slice

/-!
# Paths

A path is shown as it was written; its components are what it leads through.
-/

namespace StoryDocs
namespace Files

open Text

/-- Cut a text at every slash. -/
def slashPieces : List Char → List (List Char)
  | [] => [[]]
  | c :: s =>
    if c == '/' then [] :: slashPieces s
    else
      match slashPieces s with
      | [] => [[c]]
      | p :: ps => (c :: p) :: ps

/-- The components of a path: empty ones and single points lead nowhere. -/
def components (path : List Char) : List (List Char) :=
  (slashPieces path).filter fun p => !p.isEmpty && p != ['.']

/-- The last component of a path, unless it leads upwards. -/
def fileName? (path : List Char) : Option (List Char) :=
  match (components path).getLast? with
  | some name => if name == ['.', '.'] then none else some name
  | none => none

/-- The text behind the last point of a file name, unless the point comes first. -/
def nameExtension? (name : List Char) : Option (List Char) :=
  let tail := (name.reverse.takeWhile (· != '.')).reverse
  if tail.length + 1 < name.length then some tail else none

/-- The extension of the file that a path leads to. -/
def extension? (path : List Char) : Option (List Char) :=
  (fileName? path).bind nameExtension?

/-- A path without the slashes and single points at its end. -/
def dropSlashes : List Char → List Char
  | path => (go path.reverse).reverse
where
  /-- Drop slashes and single points from the start of a reversed path. -/
  go : List Char → List Char
    | '/' :: s => go s
    | '.' :: '/' :: s => go s
    | s => s

/-- The directory part of a path as it was written. -/
def parent (path : List Char) : List Char :=
  let trimmed := dropSlashes path
  let name := (trimmed.reverse.takeWhile (· != '/')).length
  let lead := trimmed.take (trimmed.length - name)
  match dropSlashes lead with
  | [] => if lead.isEmpty then [] else ['/']
  | p => p

/-- Put a name behind a path. -/
def join (path name : List Char) : List Char :=
  if path.isEmpty then name
  else if path.getLast? == some '/' then path ++ name
  else path ++ '/' :: name

/-- The path of a file next to the one that a path leads to. -/
def sibling (path name : List Char) : List Char :=
  match fileName? path with
  | some _ => join (parent path) name
  | none => join path name

end Files
end StoryDocs
