/-!
# Script errors

Why a script or an expression inside a document was refused, and where it stands.
-/

namespace StoryDocs
namespace Script

/-- Why a text is no acceptable script. -/
inductive Refusal where
  /-- The grammar does not accept the text. -/
  | rejected
  /-- There is no expression where one is needed. -/
  | empty
  /-- The text is more or something else than one expression. -/
  | notSingle (source : String)
  deriving DecidableEq, Repr, Inhabited

/-- A refused text and what it is called. -/
structure Error where
  context : String
  refusal : Refusal
  deriving DecidableEq, Repr, Inhabited

namespace Error

/-- What is wrong with the text, if the grammar is not all there is to say. -/
def reason? (e : Error) : Option String :=
  match e.refusal with
  | .rejected => none
  | .empty => some "empty expression"
  | .notSingle source => some ("\x60" ++ source ++ "\x60 is not a single expression")

/-- The error as it is shown. -/
def message (e : Error) : String :=
  "Script parse error in " ++ e.context ++
    match e.reason? with
    | some reason => ": " ++ reason
    | none => ""

end Error
end Script
end StoryDocs
