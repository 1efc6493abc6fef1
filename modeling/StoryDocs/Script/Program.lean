import StoryDocs.Dialect
import StoryDocs.Script.Error
import StoryDocs.Script.Module

/-!
# Programs

A program keeps each top-level statement as text with the comments in front of it.  Exports can be
demoted to plain declarations, and statements can be added; printing groups the imports.
-/

namespace StoryDocs
namespace Script

open Text

/-- What a top-level statement is. -/
inductive StatementKind where
  | import
  /-- A statement without an export. -/
  | statement
  /-- An export of a declaration with a name of its own. -/
  | exportDeclaration
  /-- An export without a declaration that could stay behind. -/
  | export
  /-- The default export of a story module. -/
  | defaultExport
  /-- The export of a story. -/
  | namedExport
  /-- Comments behind the last statement. -/
  | trivia
  deriving DecidableEq, Repr, Inhabited

/-- A top-level statement. -/
structure Statement where
  kind : StatementKind
  /-- The text with the comments in front. -/
  text : List Char
  /-- For an exported declaration, where the export starts and where the declaration does. -/
  declaration : Option (Nat × Nat) := none
  deriving DecidableEq, Repr, Inhabited

/-- The form of a module item, with what splitting a script needs to know of its parts. -/
inductive Item where
  | importDecl (span : Span)
  /-- A name that is given to another module or namespace. -/
  | importEquals (span : Span)
  /-- The export of a declaration. -/
  | exportDecl (span declared : Span)
  /-- A declaration as the default export; it may have no name. -/
  | exportDefaultDecl (span declared : Span) (named : Bool)
  /-- An export of names, of another module or of a value. -/
  | exportOther (span : Span)
  | statement (span : Span)
  deriving DecidableEq, Repr, Inhabited

namespace Item

/-- The form of an item that was read. -/
def ofTree (item : Tree) : Item :=
  match item.kind, item.parts with
  | .importDecl, _ => .importDecl item.span
  | .importEquals, _ => .importEquals item.span
  | .exportDecl, declared :: _ => .exportDecl item.span declared.span
  | .exportDefaultDecl, declared :: _ => .exportDefaultDecl item.span declared.span (declared.name != "")
  | .exportDefaultExpr, _ => .exportOther item.span
  | .exportNamed, _ => .exportOther item.span
  | .exportAll, _ => .exportOther item.span
  | .exportAssign, _ => .exportOther item.span
  | .exportNamespace, _ => .exportOther item.span
  | _, _ => .statement item.span

/-- Where an item stands. -/
def span : Item → Span
  | importDecl span => span
  | importEquals span => span
  | exportDecl span _ => span
  | exportDefaultDecl span _ _ => span
  | exportOther span => span
  | statement span => span

/-- What the statement of an item is. -/
def classify : Item → StatementKind
  | importDecl _ => .import
  | exportDecl _ _ => .exportDeclaration
  | exportDefaultDecl _ _ true => .exportDeclaration
  | importEquals _ => .statement
  | exportDefaultDecl _ _ false => .export
  | exportOther _ => .export
  | statement _ => .statement

/-- Where the exported declaration of an item starts. -/
def declarationStart? : Item → Option Nat
  | exportDecl _ declared => some declared.start
  | exportDefaultDecl _ declared true => some declared.start
  | _ => none

end Item

namespace Statement

/-- The statement of an item, cut from the text behind the statement before, which ends at
`offset`. -/
def ofItem (item : Item) (offset : Nat) (rest : List Char) : Statement :=
  let chunk := rest.take (item.span.stop - offset)
  let text := trimStart chunk
  let base := offset + (chunk.length - text.length)
  ⟨item.classify, text, item.declarationStart?.map fun start => (item.span.start - base, start - base)⟩

/-- Cut a text that starts at `offset` into the statements of items, and what is left. -/
def split : List Item → Nat → List Char → List Statement
  | [], _, rest =>
    let last := trim rest
    if last.isEmpty then [] else [⟨.trivia, last, none⟩]
  | item :: items, offset, rest =>
    ofItem item offset rest :: split items item.span.stop (rest.drop (item.span.stop - offset))

/-- Take the export off a declaration. -/
def demote (s : Statement) : Option Statement :=
  s.declaration.map fun (keyword, start) =>
    ⟨.statement, s.text.take keyword ++ s.text.drop start, none⟩

end Statement

/-- Top-level statements in order. -/
structure Program where
  statements : List Statement := []
  deriving DecidableEq, Repr, Inhabited

namespace Program

/-- Read a script into its statements. -/
def parse (text : List Char) (dialect : Dialect) (context : String) : Except Error Program :=
  match Module.parse? dialect.features text with
  | none => .error ⟨context, .rejected⟩
  | some items => .ok ⟨Statement.split (items.map Item.ofTree) 0 text⟩

/-- Add a statement at the end. -/
def append (p : Program) (s : Statement) : Program :=
  ⟨p.statements ++ [s]⟩

/-- What demotion leaves of a statement. -/
def kept? (s : Statement) : Option Statement :=
  match s.kind with
  | .exportDeclaration => s.demote
  | .export => none
  | _ => some s

/-- Turn exported declarations into plain ones and drop all other exports. -/
def demote (p : Program) : Program :=
  ⟨p.statements.filterMap kept?⟩

/-- The exports that demotion drops. -/
def dropped (p : Program) : List Statement :=
  p.statements.filter fun s => s.kind == .export

/-- What stands between two statements: imports follow each other line by line, and all else is set
apart by a blank line. -/
def gap (before after : StatementKind) : List Char :=
  if before == .import && after == .import then ['\n'] else ['\n', '\n']

/-- Statements with the gaps between them. -/
def joined : List Statement → List Char
  | [] => []
  | [s] => s.text
  | s :: t :: rest => s.text ++ gap s.kind t.kind ++ joined (t :: rest)

/-- Print the statements. -/
def print (p : Program) : List Char :=
  match joined p.statements with
  | [] => []
  | text => text ++ ['\n']

end Program
end Script
end StoryDocs
