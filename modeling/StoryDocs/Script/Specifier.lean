import StoryDocs.Dialect
import StoryDocs.Script.Error
import StoryDocs.Script.Module
import StoryDocs.Text.Splice

/-!
# Module specifiers

Imports and re-exports of one package are pointed to another.  Only the quoted specifiers are replaced;
the rest of the script keeps its text.
-/

namespace StoryDocs
namespace Script

open Text

namespace Tree

/-- The quoted source of an import or re-export. -/
def source? (item : Tree) : Option Tree :=
  match item.kind with
  | .importDecl | .exportNamed | .exportAll => item.parts.find? fun p => p.kind == .string
  | _ => none

end Tree

namespace Specifier

/-- Where a specifier of the package `old` points to in the package `new`: the package itself and its
entry `blocks` become `new`, and any other path below it stays a path. -/
def moved? (old new value : List Char) : Option (List Char) :=
  if value == old || value == old ++ "/blocks".toList then some new
  else
    match dropLead? old value with
    | some ('/' :: path) => some (new ++ '/' :: path)
    | _ => none

/-- The replacement of a quoted source that points into `old`; the quotes are kept. -/
def replacement? (text old new : List Char) (source : Tree) : Option Replacement :=
  (moved? old new source.name.toList).map fun target =>
    let quote := (text.drop source.span.start).headD '\x27'
    ⟨source.span.start, source.span.stop, quote :: target ++ [quote]⟩

/-- The replacements in a module. -/
def replacements (text old new : List Char) (items : List Tree) : List Replacement :=
  (items.filterMap Tree.source?).filterMap (replacement? text old new)

/-- Point the imports and re-exports of `old` to `new`.  A script that does not mention `old` is not
read at all. -/
def move (text old new : List Char) (dialect : Dialect) (context : String) :
    Except Error (List Char) :=
  if !Text.contains old text then .ok text
  else
    match Module.parse? dialect.features text with
    | none => .error ⟨context, .rejected⟩
    | some items => .ok (splice (replacements text old new items) text)

/-- The import of a whole module under a name. -/
def namespaceImport (name specifier : List Char) : List Char :=
  "import * as ".toList ++ name ++ " from \x27".toList ++ specifier ++ "\x27;".toList

end Specifier
end Script
end StoryDocs
