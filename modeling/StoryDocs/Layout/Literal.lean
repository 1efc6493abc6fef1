import StoryDocs.Script.Tree

/-!
# Literals of a module

Where a module holds strings that can change their quotes, and where its text must stay as it is.
-/

namespace StoryDocs
namespace Script

mutual

/-- The ranges of the strings in a tree. -/
def Tree.strings : Tree → List Span
  | .node .string span _ _ => [span]
  | .node _ _ _ parts => Tree.stringsOf parts

/-- The ranges of the strings in several trees. -/
def Tree.stringsOf : List Tree → List Span
  | [] => []
  | t :: ts => t.strings ++ Tree.stringsOf ts

end

mutual

/-- The ranges of the templates in a tree. -/
def Tree.templates : Tree → List Span
  | .node kind span _ parts =>
    if kind == .template || kind == .typeTemplate then span :: Tree.templatesOf parts
    else Tree.templatesOf parts

/-- The ranges of the templates in several trees. -/
def Tree.templatesOf : List Tree → List Span
  | [] => []
  | t :: ts => t.templates ++ Tree.templatesOf ts

end

end Script

namespace Layout

open Script

/-- The literals that the layout of a module depends on. -/
structure Literals where
  /-- Strings on one line, quotes included, in the order of the text. -/
  strings : List Span
  /-- Templates and strings over several lines. -/
  verbatim : List Span
  deriving DecidableEq, Repr, Inhabited

namespace Literals

/-- Whether a range of a text holds a line feed. -/
def isBroken (text : List Char) (span : Span) : Bool :=
  ((text.drop span.start).take (span.stop - span.start)).contains '\n'

/-- The literals of a module. -/
def ofModule (text : List Char) (items : List Tree) : Literals :=
  let all := Tree.stringsOf items
  { strings := (all.filter fun s => !isBroken text s).mergeSort fun a b => a.start ≤ b.start
    verbatim := all.filter (isBroken text) ++ Tree.templatesOf items }

/-- Whether a line that starts at an offset starts inside a literal. -/
def isVerbatimLine (l : Literals) (offset : Nat) : Bool :=
  l.verbatim.any fun s => s.start < offset && offset < s.stop

end Literals
end Layout
end StoryDocs
