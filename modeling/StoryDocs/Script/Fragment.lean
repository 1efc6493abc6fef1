import StoryDocs.Dialect
import StoryDocs.Script.Error
import StoryDocs.Script.Module

/-!
# Expression fragments

Attribute values and story bodies are expressions outside any statement.  A fragment is acceptable when
it is one expression statement once it is put between brackets.
-/

namespace StoryDocs
namespace Script

open Text

/-- An accepted expression: its trimmed text and its tree. -/
structure Fragment where
  source : List Char
  tree : Tree
  deriving Inhabited

namespace Tree

/-- Whether a tree is a name, `this` or a chain of named members of one. -/
def isReference : Tree → Bool
  | node .identifier _ _ _ => true
  | node .thisRef _ _ _ => true
  | node .member _ _ [base, name] => name.kind == .name && base.isReference
  | _ => false

/-- Whether a tree is a call of `bind` on a reference. -/
def bindsReference : Tree → Bool
  | node .call _ _ (node .member _ _ [base, name] :: _) =>
    name.kind == .name && name.name == "bind" && base.isReference
  | _ => false

end Tree

namespace Fragment

/-- The script that a fragment is read in. -/
def wrap (source : List Char) : List Char :=
  "(\n".toList ++ source ++ "\n);".toList

/-- The expression of a module that is one expression statement, without the brackets around it. -/
def expressionOf? : List Tree → Option Tree
  | [.node .expressionStatement _ _ [.node .paren _ _ [e]]] => some e
  | [.node .expressionStatement _ _ [e]] => some e
  | _ => none

/-- Read an expression with a reader of modules; `context` is what errors call it. -/
def parseWith (parse? : ModuleReader) (text : List Char) (dialect : Dialect) (context : String) :
    Except Error Fragment :=
  let source := trim text
  if source.isEmpty then .error ⟨context, .empty⟩
  else
    match parse? dialect.features (wrap source) with
    | none => .error ⟨context, .rejected⟩
    | some items =>
      match expressionOf? items with
      | some e => .ok ⟨source, e⟩
      | none => .error ⟨context, .notSingle (String.ofList source)⟩

/-- Read an expression. -/
def parse (text : List Char) (dialect : Dialect) (context : String) : Except Error Fragment :=
  parseWith Module.parse? text dialect context

/-- Whether the expression is a reference bound by a call of `bind`, and so a function itself. -/
def isBoundFunction (f : Fragment) : Bool :=
  f.tree.bindsReference

/-- Whether the expression is an object literal, which needs brackets as a function body. -/
def isObjectLiteral (f : Fragment) : Bool :=
  f.tree.kind == .object

/-- The function without parameters that returns the expression. -/
def thunk (f : Fragment) : List Char :=
  if f.isObjectLiteral then "() => (".toList ++ f.source ++ [')']
  else "() => ".toList ++ f.source

end Fragment
end Script
end StoryDocs
