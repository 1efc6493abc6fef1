/-!
# Styles

How a story module is laid out.
-/

namespace StoryDocs

/-- Where a comma follows the last part of a list. -/
inductive TrailingComma where
  | never
  | lists
  | everywhere
  deriving DecidableEq, Repr, Inhabited

namespace TrailingComma

/-- The name of a policy in configuration files. -/
def name : TrailingComma → String
  | never => "none"
  | lists => "es5"
  | everywhere => "all"

/-- The policy of a name. -/
def ofName? : String → Option TrailingComma
  | "none" => some never
  | "es5" => some lists
  | "all" => some everywhere
  | _ => none

end TrailingComma

/-- The layout of a module. -/
structure Style where
  /-- Spaces per level of indentation. -/
  tabWidth : Nat := 2
  useTabs : Bool := false
  singleQuote : Bool := true
  trailingComma : TrailingComma := .lists
  deriving DecidableEq, Repr, Inhabited

namespace Style

/-- The style of a project without any configuration. -/
def default : Style := {}

/-- What a configuration file starts from. -/
def unconfigured : Style :=
  { singleQuote := false, trailingComma := .everywhere }

end Style
end StoryDocs
