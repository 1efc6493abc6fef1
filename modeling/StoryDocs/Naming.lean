import StoryDocs.Script.Reserved
import StoryDocs.Text.Case
import StoryDocs.Text.Letter
import StoryDocs.Text.Slice

/-!
# Names

What a documentation file and its stories give their names to: the story module, the namespace the
documentation imports it under, exported stories and the keys of object literals.
-/

namespace StoryDocs
namespace Naming

open Text

/-- The endings of documentation files; the first that matches is dropped. -/
def documentEndings : List String :=
  [".stories.mdx", "story.mdx", ".mdx"]

/-- The name of a documentation file without its ending. -/
def baseName (fileName : List Char) : List Char :=
  (documentEndings.findSome? fun ending => dropTrail? ending.toList fileName).getD fileName

/-- The name the documentation imports the story module under. -/
def moduleNamespace (base : List Char) : List Char :=
  base ++ "Stories".toList

/-- What the documentation imports the story module from. -/
def moduleSpecifier (base : List Char) : List Char :=
  "./".toList ++ base ++ ".stories".toList

/-- The file name of the story module. -/
def moduleFileName (base extension : List Char) : List Char :=
  base ++ ".stories.".toList ++ extension

/-- Put the first character into upper case and the others into lower case. -/
def capitalize : List Char → List Char
  | [] => []
  | c :: s => upper c ++ s.flatMap lower

/-- Whether a character can start an identifier. -/
def startsName (c : Char) : Bool :=
  isAlphabetic c || c == '_' || c == '$'

/-- Whether a character can stand inside an identifier. -/
def continuesName (c : Char) : Bool :=
  isAlphanumeric c || c == '_' || c == '$'

/-- Whether a text is an identifier, reserved or not. -/
def isIdentifierName : List Char → Bool
  | [] => false
  | c :: s => startsName c && s.all continuesName

/-- Whether a text is an identifier that a declaration can bind. -/
def isBindingName (name : List Char) : Bool :=
  isIdentifierName name && !Script.isReserved (String.ofList name)

/-- A character as it is written between single quotes. -/
def quotedChar (c : Char) : List Char :=
  if c == '\\' then ['\\', '\\']
  else if c == '\x27' then ['\\', '\x27']
  else if c == '\n' then ['\\', 'n']
  else if c == '\r' then ['\\', 'r']
  else [c]

/-- A text as a string literal in single quotes. -/
def quoted (value : List Char) : List Char :=
  '\x27' :: value.flatMap quotedChar ++ ['\x27']

/-- A text as the key of an object literal. -/
def propertyKey (name : List Char) : List Char :=
  if isIdentifierName name then name else quoted name

end Naming
end StoryDocs
