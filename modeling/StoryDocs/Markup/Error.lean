import StoryDocs.Markup.Position

/-!
# Markup errors

Why a text is no document, and where that shows.
-/

namespace StoryDocs
namespace Markup

/-- What is wrong. -/
inductive Cause where
  /-- A character that nothing can go on with. -/
  | unexpected (found : Char) (expected : String)
  /-- The text ends too early. -/
  | unexpectedEnd (expected : String)
  /-- An element is never closed. -/
  | unclosed (name : String)
  /-- A closing tag belongs to another element than the innermost open one. -/
  | mismatched (expected found : String)
  /-- A closing tag stands outside any element. -/
  | stray (name : String)
  /-- A quoted attribute value does not end. -/
  | unterminatedAttribute (name : String)
  /-- A brace does not end. -/
  | unterminatedExpression
  /-- Braces between attributes hold something else than a spread. -/
  | invalidSpread
  deriving DecidableEq, Repr, Inhabited

/-- An error and the position it is reported at. -/
structure Error where
  cause : Cause
  position : Position
  deriving DecidableEq, Repr, Inhabited

namespace Cause

/-- What is wrong, in words. -/
def describe : Cause → String
  | unexpected found expected =>
    "unexpected character \x60" ++ found.toString ++ "\x60, expected " ++ expected
  | unexpectedEnd expected => "unexpected end of input, expected " ++ expected
  | unclosed name => "element \x60<" ++ name ++ ">\x60 is never closed"
  | mismatched expected found =>
    "closing tag \x60</" ++ found ++ ">\x60 does not match \x60<" ++ expected ++ ">\x60"
  | stray name => "unexpected closing tag \x60</" ++ name ++ ">\x60"
  | unterminatedAttribute name => "unterminated string in attribute \x60" ++ name ++ "\x60"
  | unterminatedExpression => "unterminated expression"
  | invalidSpread => "attribute expression must be a spread (\x60\x7b...value\x7d\x60)"

end Cause

/-- The error as it is shown. -/
def Error.message (e : Error) : String :=
  e.position.render ++ ": " ++ e.cause.describe

end Markup
end StoryDocs
