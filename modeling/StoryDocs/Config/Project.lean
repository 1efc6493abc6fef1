import StoryDocs.Config.Toml.Parser
import StoryDocs.Migration

/-!
# Project configuration

The settings of a project for its migrations.  Other settings than these are refused.
-/

namespace StoryDocs
namespace Config

/-- The settings of a project. -/
structure Project where
  parser : Option (List Char) := none
  legacyPackage : Option (List Char) := none
  blocksPackage : Option (List Char) := none
  deriving DecidableEq, Repr, Inhabited

namespace Project

/-- The name of the configuration file in the working directory. -/
def fileName : List Char :=
  "storyweld.toml".toList

/-- The names of the settings. -/
def settingNames : List (List Char) :=
  ["parser".toList, "legacy_package".toList, "blocks_package".toList]

/-- The settings in a configuration file. -/
def parse? (text : List Char) : Option Project := do
  let fields ← Toml.parse? text
  guard (fields.all fun field => settingNames.contains field.1)
  return {
    parser := ← readField Toml.reading.text "parser" fields
    legacyPackage := ← readField Toml.reading.text "legacy_package" fields
    blocksPackage := ← readField Toml.reading.text "blocks_package" fields }

/-- The name of the grammar: one that was asked for goes over the configured one. -/
def parserName (p : Project) (asked : Option String) : Option String :=
  asked.or (p.parser.map String.ofList)

/-- The options of a migration; fails with a name that stands for no dialect. -/
def options (p : Project) (asked : Option String) (style : Style) : Except String Options := do
  let dialect ←
    match p.parserName asked with
    | none => pure Dialect.tsx
    | some name =>
      match Dialect.ofName? name with
      | some dialect => pure dialect
      | none => throw name
  let initial : Options := {}
  return {
    dialect := dialect
    legacyPackage := p.legacyPackage.getD initial.legacyPackage
    blocksPackage := p.blocksPackage.getD initial.blocksPackage
    style := style }

end Project
end Config
end StoryDocs
