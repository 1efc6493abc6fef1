import StoryDocs.Script.Grammar.Basic
import StoryDocs.Text.Slice

/-!
# Dialects

The grammar in which the scripts and expressions of a document are read.
-/

namespace StoryDocs

/-- The grammars a document can be written in. -/
inductive Dialect where
  /-- Types and tags. -/
  | tsx
  /-- Types without tags. -/
  | ts
  /-- Tags without types. -/
  | jsx
  deriving DecidableEq, Repr, Inhabited

namespace Dialect

/-- The dialect that a parser name asks for, in any case. -/
def ofName? (name : String) : Option Dialect :=
  match String.ofList (Text.asciiLower name.toList) with
  | "tsx" => some .tsx
  | "ts" => some .ts
  | "typescript" => some .ts
  | "babel" => some .jsx
  | "babylon" => some .jsx
  | "jsx" => some .jsx
  | "flow" => some .jsx
  | "js" => some .jsx
  | _ => none

/-- The message about a parser name that asks for no dialect. -/
def unknownName (name : String) : String :=
  "unknown parser \x60" ++ String.ofList (Text.asciiLower name.toList) ++
    "\x60 (expected tsx, ts, babel, babylon, jsx, flow or js)"

/-- The name of a dialect. -/
def name : Dialect → String
  | tsx => "tsx"
  | ts => "ts"
  | jsx => "jsx"

/-- The grammar extensions of a dialect. -/
def features : Dialect → Script.Features
  | tsx => { types := true, tags := true }
  | ts => { types := true, tags := false }
  | jsx => { types := false, tags := true }

/-- Whether tags are part of the dialect. -/
def supportsTags (d : Dialect) : Bool :=
  d.features.tags

/-- The file extension of a story module. -/
def extension : Dialect → String
  | tsx => "tsx"
  | ts => "tsx"
  | jsx => "jsx"

end Dialect
end StoryDocs
