import StoryDocs.Layout.Style

/-!
# Style preferences

The options of a style configuration file, as far as they concern the layout of modules.  The formats
in which they are written differ only in what counts as a number, a flag or a text.
-/

namespace StoryDocs
namespace Config

/-- The layout options of a configuration file. -/
structure Preferences where
  tabWidth : Option Nat := none
  useTabs : Option Bool := none
  singleQuote : Option Bool := none
  trailingComma : Option (List Char) := none
  deriving DecidableEq, Repr, Inhabited

/-- How the values of a format are understood; each reading may give nothing, and fails on a value of
another kind. -/
structure Reading (α : Type) where
  count : α → Option (Option Nat)
  flag : α → Option (Option Bool)
  text : α → Option (Option (List Char))

/-- The names of the options that are read. -/
def optionNames : List (List Char) :=
  ["tabWidth".toList, "useTabs".toList, "singleQuote".toList, "trailingComma".toList]

/-- Whether every name of a list occurs at most once among the keys. -/
def eachOnce {α : Type} (names : List (List Char)) (fields : List (List Char × α)) : Bool :=
  names.all fun name => (fields.filter fun field => field.1 == name).length ≤ 1

/-- Read the field of a name; a missing one gives nothing. -/
def readField {α β : Type} (read : α → Option (Option β)) (name : String)
    (fields : List (List Char × α)) : Option (Option β) :=
  match fields.find? (fun field => field.1 == name.toList) with
  | some (_, value) => read value
  | none => some none

namespace Preferences

/-- The options among named values: other names are ignored, and a name that occurs twice is refused. -/
def ofFields? {α : Type} (r : Reading α) (fields : List (List Char × α)) : Option Preferences := do
  guard (eachOnce optionNames fields)
  return {
    tabWidth := ← readField r.count "tabWidth" fields
    useTabs := ← readField r.flag "useTabs" fields
    singleQuote := ← readField r.flag "singleQuote" fields
    trailingComma := ← readField r.text "trailingComma" fields }

/-- The options in the order of their declaration. -/
def ofList? {α : Type} (r : Reading α) : List α → Option Preferences
  | [tabWidth, useTabs, singleQuote, trailingComma] => do
    return {
      tabWidth := ← r.count tabWidth
      useTabs := ← r.flag useTabs
      singleQuote := ← r.flag singleQuote
      trailingComma := ← r.text trailingComma }
  | _ => none

end Preferences
end Config
end StoryDocs
