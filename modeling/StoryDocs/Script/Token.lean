/-!
# Tokens of a script

A token keeps the text it was read from and the text behind it, so that a grammar rule that expects
another reading at the same place (a regular expression, a tag name, a template) can read it again.
Offsets count characters from the start of the script.
-/

namespace StoryDocs
namespace Script

/-- A half-open range of character offsets. -/
structure Span where
  start : Nat
  stop : Nat
  deriving DecidableEq, Repr, Inhabited

/-- What a token is. -/
inductive Lexeme where
  /-- A name or keyword; `escaped` tells whether it is spelled with a Unicode escape. -/
  | word (name : String) (escaped : Bool)
  /-- A `#name`. -/
  | hash (name : String)
  /-- A quoted string and the text it denotes. -/
  | string (value : String)
  /-- A number. -/
  | number
  /-- An integer with the suffix `n`. -/
  | bigint
  /-- An operator, a bracket or a separator. -/
  | mark (text : String)
  /-- The end of the script. -/
  | done
  /-- Text that starts no token. -/
  | bad
  deriving DecidableEq, Repr, Inhabited

/-- A token in its place. -/
structure Token where
  lexeme : Lexeme
  start : Nat
  stop : Nat
  /-- Whether a line break lies between the token before and this one. -/
  afterBreak : Bool
  /-- Whether the token is readable but forbidden in a module. -/
  faulty : Bool
  /-- The script from the token on. -/
  here : List Char
  /-- The script behind the token. -/
  rest : List Char
  deriving Inhabited

end Script
end StoryDocs
