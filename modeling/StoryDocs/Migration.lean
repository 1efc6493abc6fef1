import StoryDocs.Files.Path
import StoryDocs.Layout.Formatter
import StoryDocs.Markup.Error
import StoryDocs.Markup.Parser
import StoryDocs.Script.Specifier
import StoryDocs.Story.Synthesis

/-!
# Migration

A documentation file is split in two: the documentation, which refers to its stories, and the story
module, which holds them.
-/

namespace StoryDocs

open Markup Script

/-- Why a documentation file cannot be migrated. -/
inductive MigrationError where
  | markup (error : Markup.Error)
  | script (error : Script.Error)
  deriving DecidableEq, Repr, Inhabited

/-- The error as it is shown. -/
def MigrationError.message : MigrationError → String
  | markup e => "Markup error: " ++ e.message
  | script e => e.message

/-- How to migrate. -/
structure Options where
  dialect : Dialect := .tsx
  /-- The package that imports are moved away from. -/
  legacyPackage : List Char := "@storybook/addon-docs".toList
  /-- The package that imports are moved to. -/
  blocksPackage : List Char := "@storybook/blocks".toList
  style : Style := .default
  deriving DecidableEq, Repr, Inhabited

/-- The two files that a documentation file becomes. -/
structure Migrated where
  documentation : List Char
  module : List Char
  /-- The name of the story module, which is a sibling of the documentation. -/
  fileName : List Char
  diagnostics : List Diagnostic
  deriving DecidableEq, Repr, Inhabited

namespace Migrated

/-- How many warnings the migration gave. -/
def warnings (m : Migrated) : Nat :=
  Diagnostic.warningCount m.diagnostics

end Migrated

namespace Migration

/-- The name of the file itself. -/
def leafOf (fileName : List Char) : List Char :=
  (Files.fileName? fileName).getD fileName

/-- The remark about a namespace that is no identifier. -/
def namespaceRemarks (leaf ns : List Char) : List Diagnostic :=
  if Naming.isBindingName ns then []
  else
    [{ code := .invalidIdentifier
       message := "file name \x60" ++ String.ofList leaf ++ "\x60 gives the namespace \x60" ++
        String.ofList ns ++ "\x60, which is not a valid identifier" }]

/-- Move the imports of script blocks to the new package; the blocks are counted from `number`. -/
def moveImports (o : Options) : Nat → List Node → Except Script.Error (List Node)
  | _, [] => .ok []
  | number, .script value :: ns => do
    let moved ← Specifier.move value o.legacyPackage o.blocksPackage o.dialect
      ("script block " ++ toString number)
    let rest ← moveImports o (number + 1) ns
    return .script moved :: rest
  | number, n :: ns => do
    let rest ← moveImports o number ns
    return n :: rest

/-- Add a line to the first script block, if there is one. -/
def addToFirst? (line : List Char) : List Node → Option (List Node)
  | [] => none
  | .script value :: ns => some (.script (value ++ '\n' :: line) :: ns)
  | n :: ns => (addToFirst? line ns).map (n :: ·)

/-- Add a line to the first script block, or a first block that holds it. -/
def addImport (line : List Char) (ns : List Node) : List Node :=
  (addToFirst? line ns).getD (.script line :: .text ['\n', '\n'] :: ns)

/-- Join script blocks with a blank line between them. -/
def joinScripts : List (List Char) → List Char
  | [] => []
  | [s] => s
  | s :: ss => s ++ '\n' :: '\n' :: joinScripts ss

/-- Whether a line looks like part of a comment. -/
def isCommentLine (line : List Char) : Bool :=
  let code := Text.trimStart line
  Text.startsWith ['/', '/'] code || Text.startsWith ['/', '*'] code || Text.startsWith ['*'] code

/-- The first line of a text that is no comment, or the text if there is none. -/
def firstLine (s : List Char) : List Char :=
  Text.trim (((Text.lines s).find? fun l => !isCommentLine l).getD s)

/-- The remark about an export that was dropped. -/
def droppedRemark (s : Statement) : Diagnostic :=
  { code := .droppedExport
    message := "\x60" ++ String.ofList (firstLine s.text) ++ "\x60 dropped from the story module" }

/-- Format a module, or leave it as it is with a remark. -/
def layOut (o : Options) (printed fileName : List Char) : List Char × List Diagnostic :=
  match Layout.format o.style printed fileName with
  | .ok module => (module, [])
  | .error _ =>
    (printed,
      [{ code := .unformattedModule
         message := "\x60" ++ String.ofList fileName ++ "\x60 was written unformatted" }])

/-- Migrate the contents of a documentation file. -/
def run (o : Options) (source fileName : List Char) : Except MigrationError Migrated := do
  let leaf := leafOf fileName
  let base := Naming.baseName leaf
  let ns := Naming.moduleNamespace base
  let document ← (parse source).mapError .markup
  let moved ← (moveImports o 1 document.children).mapError .script
  let scripts := Document.scripts ⟨moved⟩
  let preamble ←
    (Program.parse (joinScripts scripts) o.dialect "script blocks").mapError .script
  let imported := addImport (Specifier.namespaceImport ns (Naming.moduleSpecifier base)) moved
  let (remaining, collected) := extract ns ⟨imported⟩
  let (program, remarks) ←
    (synthesize o.dialect preamble.demote collected.extraction).mapError .script
  let moduleName := Naming.moduleFileName base o.dialect.extension.toList
  let (module, unformatted) := layOut o program.print moduleName
  let diagnostics := namespaceRemarks leaf ns ++ collected.remarks ++
    preamble.dropped.map droppedRemark ++ remarks ++ unformatted
  return {
    documentation := remaining.print
    module := module
    fileName := moduleName
    diagnostics := diagnostics.map (Diagnostic.stamp (some (String.ofList fileName))) }

end Migration
end StoryDocs
