import StoryDocs.Config.EditorSettings
import StoryDocs.Config.Json
import StoryDocs.Config.Toml.Parser
import StoryDocs.Config.Yaml.Node
import StoryDocs.Files.Store
import StoryDocs.Text.Blank

/-!
# Finding a style

The style of a project comes from two kinds of files, each taken from the nearest directory that has
one: style preferences and editor settings.  Preferences go over editor settings.
-/

namespace StoryDocs
namespace Layout

open Config Files

/-- Why a style cannot be taken from configuration files. -/
inductive DiscoveryError where
  /-- A file cannot be read. -/
  | unreadable (fault : Fault)
  /-- The file at a place is not in its format. -/
  | malformed (place : Place)
  /-- There is no policy of that name for trailing commas. -/
  | unknownComma (name : List Char)
  deriving DecidableEq, Repr, Inhabited

/-- The message about a name that stands for no policy. -/
def commaMessage (name : List Char) : String :=
  "Configuration error: unknown trailingComma value \x60" ++ String.ofList name ++ "\x60"

/-- The preferences in a file that may be in object notation or indented; a blank one has none. -/
def anyPreferences? (text : List Char) : Option Preferences :=
  if Text.allBlank text then some {}
  else (Json.preferences? text).or (Yaml.preferences? text)

/-- The files that may hold preferences, in the order in which a directory is asked for them.  A reader
may fail, or find that a file has no preferences. -/
def preferenceFiles : List (Name × (List Char → Option (Option Preferences))) :=
  [(".prettierrc".toList, fun text => (anyPreferences? text).map some),
    (".prettierrc.json".toList, fun text => (Json.preferences? text).map some),
    (".prettierrc.toml".toList, fun text => (Toml.preferences? text).map some),
    ("package.json".toList, Json.section? "prettier".toList)]

/-- The preferences of a directory: the first of the given files that exists decides. -/
def firstPreferences (s : Store) (directory : Place) :
    List (Name × (List Char → Option (Option Preferences))) →
      Except DiscoveryError (Option Preferences)
  | [] => .ok none
  | (name, read) :: rest =>
    let place := directory ++ [name]
    if s.isFile place then
      match s.read place with
      | .error fault => .error (.unreadable fault)
      | .ok text =>
        match read text with
        | some found => .ok found
        | none => .error (.malformed place)
    else firstPreferences s directory rest

/-- The preferences of a directory. -/
def preferencesAt (s : Store) (directory : Place) : Except DiscoveryError (Option Preferences) :=
  firstPreferences s directory preferenceFiles

/-- The editor settings of a directory. -/
def settingsAt (s : Store) (directory : Place) : Except DiscoveryError (Option EditorSettings) :=
  let place := directory ++ [".editorconfig".toList]
  if s.isFile place then
    match s.read place with
    | .error fault => .error (.unreadable fault)
    | .ok text => .ok (some (EditorSettings.parse text))
  else .ok none

/-- What a search has found so far. -/
structure Found where
  preferences : Option Preferences := none
  settings : Option EditorSettings := none
  deriving DecidableEq, Repr, Inhabited

/-- Look for what is still missing in a directory. -/
def Found.visit (s : Store) (directory : Place) (f : Found) : Except DiscoveryError Found := do
  let preferences ←
    match f.preferences with
    | some p => pure (some p)
    | none => preferencesAt s directory
  let settings ←
    match f.settings with
    | some e => pure (some e)
    | none => settingsAt s directory
  return ⟨preferences, settings⟩

/-- Visit directories until both kinds of files are found. -/
def Found.search (s : Store) : List Place → Found → Except DiscoveryError Found
  | [], f => .ok f
  | directory :: rest, f => do
    let f ← f.visit s directory
    if f.preferences.isSome && f.settings.isSome then return f else f.search s rest

/-- The style with the indentation that editor settings ask for. -/
def withSettings (e : EditorSettings) (style : Style) : Style :=
  { style with
    useTabs := e.useTabs.getD style.useTabs
    tabWidth := e.indentSize.getD style.tabWidth }

/-- The style with the given preferences. -/
def withPreferences (p : Preferences) (style : Style) : Except DiscoveryError Style := do
  let comma ←
    match p.trailingComma with
    | none => pure style.trailingComma
    | some name =>
      match TrailingComma.ofName? (String.ofList name) with
      | some policy => pure policy
      | none => throw (.unknownComma name)
  return {
    tabWidth := p.tabWidth.getD style.tabWidth
    useTabs := p.useTabs.getD style.useTabs
    singleQuote := p.singleQuote.getD style.singleQuote
    trailingComma := comma }

/-- The style of what a search has found. -/
def Found.style (f : Found) : Except DiscoveryError (Option Style) :=
  match f.preferences, f.settings with
  | none, none => .ok none
  | p, e =>
    (withPreferences (p.getD {}) (withSettings (e.getD {}) Style.unconfigured)).map some

/-- Look for a style from a directory upwards. -/
def discover (s : Store) (start : Place) : Except DiscoveryError (Option Style) := do
  (← Found.search s (ancestors start) {}).style

/-- The style for a directory; without a usable one, the default. -/
def styleFor (s : Store) (start : Place) : Style :=
  match discover s start with
  | .ok (some style) => style
  | _ => Style.default

end Layout
end StoryDocs
