import StoryDocs.Files.Path

/-!
# File stores

A store maps places to files and directories.  A place is the list of names that lead to it from the
root, and the entries are kept in the order of their places: the order of a walk that visits the names of
each directory in ascending order.
-/

namespace StoryDocs
namespace Files

/-- The name of a file or directory in its parent. -/
abbrev Name := List Char

/-- The names that lead from the root to an entry. -/
abbrev Place := List Name

/-- What a file holds. -/
inductive Contents where
  | text (s : List Char)
  /-- Bytes that are no UTF-8 text. -/
  | bytes (b : List UInt8)
  deriving DecidableEq, Repr, Inhabited

/-- The contents of a file from its bytes. -/
def Contents.ofBytes (b : List UInt8) : Contents :=
  match String.fromUTF8? ⟨b.toArray⟩ with
  | some s => text s.toList
  | none => bytes b

/-- What stands at a place. -/
inductive Entry where
  | file (contents : Contents)
  | directory
  deriving DecidableEq, Repr, Inhabited

/-- Why a file cannot be read or written. -/
inductive Fault where
  | notFound
  | notDirectory
  | isDirectory
  | notText
  deriving DecidableEq, Repr, Inhabited

/-- The fault as it is shown. -/
def Fault.message : Fault → String
  | notFound => "No such file or directory (os error 2)"
  | notDirectory => "Not a directory (os error 20)"
  | isDirectory => "Is a directory (os error 21)"
  | notText => "stream did not contain valid UTF-8"

/-- Names are ordered by their characters. -/
def nameOrder : Name → Name → Ordering
  | [], [] => .eq
  | [], _ :: _ => .lt
  | _ :: _, [] => .gt
  | a :: s, b :: t =>
    if a.toNat < b.toNat then .lt
    else if b.toNat < a.toNat then .gt
    else nameOrder s t

/-- Places are ordered by their names. -/
def placeOrder : Place → Place → Ordering
  | [], [] => .eq
  | [], _ :: _ => .lt
  | _ :: _, [] => .gt
  | a :: s, b :: t =>
    match nameOrder a b with
    | .eq => placeOrder s t
    | o => o

/-- The names behind `base`, when a place lies at or below it. -/
def below? : Place → Place → Option Place
  | [], place => some place
  | _ :: _, [] => none
  | a :: base, b :: place => if a == b then below? base place else none

/-- Files and directories by their places, in the order of the places. -/
structure Store where
  entries : List (Place × Entry) := []
  deriving DecidableEq, Repr, Inhabited

namespace Store

/-- Put an entry in its position, in place of one that stands there. -/
def insertEntry (place : Place) (entry : Entry) : List (Place × Entry) → List (Place × Entry)
  | [] => [(place, entry)]
  | (p, e) :: rest =>
    match placeOrder place p with
    | .lt => (place, entry) :: (p, e) :: rest
    | .eq => (place, entry) :: rest
    | .gt => (p, e) :: insertEntry place entry rest

/-- The store with an entry at a place. -/
def put (s : Store) (place : Place) (entry : Entry) : Store :=
  ⟨insertEntry place entry s.entries⟩

/-- The store that holds the given entries. -/
def ofEntries (entries : List (Place × Entry)) : Store :=
  entries.foldl (fun s (place, entry) => s.put place entry) {}

/-- Whether some entry lies below a place. -/
def hasBelow (s : Store) (place : Place) : Bool :=
  s.entries.any fun (p, _) => ((below? place p).map fun rest => !rest.isEmpty).getD false

/-- What stands at a place: the root and whatever has an entry below it is a directory. -/
def get? (s : Store) (place : Place) : Option Entry :=
  match s.entries.find? (fun (p, _) => p == place) with
  | some (_, entry) => some entry
  | none => if place.isEmpty || s.hasBelow place then some .directory else none

/-- Whether a file stands at a place. -/
def isFile (s : Store) (place : Place) : Bool :=
  match s.get? place with
  | some (.file _) => true
  | _ => false

/-- Whether a directory stands at a place. -/
def isDirectory (s : Store) (place : Place) : Bool :=
  s.get? place == some .directory

/-- The text of the file at a place. -/
def read (s : Store) (place : Place) : Except Fault (List Char) :=
  match s.get? place with
  | some (.file (.text t)) => .ok t
  | some (.file (.bytes _)) => .error .notText
  | some .directory => .error .isDirectory
  | none => .error .notFound

/-- Pass a directory; anything else ends a path. -/
def enter (s : Store) (place : Place) : Except Fault Unit :=
  match s.get? place with
  | some .directory => .ok ()
  | some (.file _) => .error .notDirectory
  | none => .error .notFound

/-- Write a text to a place: a directory stays what it is, and the file's directory has to exist. -/
def write (s : Store) (place : Place) (text : List Char) : Except Fault Store :=
  match s.get? place with
  | some .directory => .error .isDirectory
  | _ =>
    match s.enter place.dropLast with
    | .error fault => .error fault
    | .ok () => .ok (s.put place (.file (.text text)))

/-- Follow the pieces of a path from a place; every piece but a last name has to stand in a directory. -/
def follow (s : Store) : Place → List (List Char) → Except Fault Place
  | place, [] => .ok place
  | place, piece :: pieces => do
    s.enter place
    if piece.isEmpty || piece == ['.'] then s.follow place pieces
    else if piece == ['.', '.'] then s.follow place.dropLast pieces
    else s.follow (place ++ [piece]) pieces

/-- The place that a path leads to from a directory. -/
def locate (s : Store) (directory : Place) (path : List Char) : Except Fault Place :=
  match path with
  | [] => .error .notFound
  | '/' :: rest => s.follow [] (slashPieces rest)
  | _ => s.follow directory (slashPieces path)

/-- The regular files of a store in order. -/
def files (s : Store) : List (Place × Contents) :=
  s.entries.filterMap fun (place, entry) =>
    match entry with
    | .file contents => some (place, contents)
    | .directory => none

end Store

/-- The places that the names on a path upwards lead to, the nearest first. -/
def placesUp : List Name → List Place
  | [] => [[]]
  | name :: up => (name :: up).reverse :: placesUp up

/-- A place and the directories above it, the nearest first. -/
def ancestors (place : Place) : List Place :=
  placesUp place.reverse

/-- The full path of a place under a root that is written `root`. -/
def fullPath (root : List Char) : Place → List Char
  | [] => root
  | name :: rest => rest.foldl join (join root name)

end Files
end StoryDocs
