import StoryDocs.Script.Grammar.Basic
import StoryDocs.Script.Reserved

/-!
# Names

Any word is a name where a property or an exported name is expected; where a value or a binding is
expected, the reserved words of modules are excluded.
-/

namespace StoryDocs
namespace Script
namespace Grammar

/-- Whether a token is a word that can name a value. -/
def isReference (t : Token) : Bool :=
  match t.lexeme with
  | .word name _ => !isReserved name
  | _ => false

/-- Whether the current token can name a value. -/
def atReference : Parse Bool :=
  return isReference (← token)

/-- Read any word as a name. -/
def anyName : Parse Tree := do
  let t ← token
  match t.lexeme with
  | .word name _ =>
    advance
    return .node .name ⟨t.start, t.stop⟩ name []
  | _ => reject

/-- Read a word that names a value. -/
def reference : Parse Tree := do
  let t ← token
  match t.lexeme with
  | .word name _ =>
    require (!hardReserved.contains name)
    faultIf (strictReserved.contains name)
    faultIf (name == "arguments" && (← read).inClassField)
    advance
    return .node .identifier ⟨t.start, t.stop⟩ name []
  | _ => reject

/-- Read a word that a declaration binds; typed scripts bind `this` as a parameter. -/
def bindingName : Parse Tree := do
  let t ← token
  match t.lexeme with
  | .word name escaped =>
    let allowed :=
      (name == "this" && (← typed) && !escaped) || (name == "await" && (← read).ambient)
    require (allowed || !hardReserved.contains name)
    faultIf (strictReserved.contains name || name == "eval" || name == "arguments")
    advance
    return .node .identifier ⟨t.start, t.stop⟩ name []
  | _ => reject

/-- Read a private name. -/
def privateName : Parse Tree := do
  let t ← token
  match t.lexeme with
  | .hash name =>
    advance
    return .node .privateName ⟨t.start, t.stop⟩ name []
  | _ => reject

/-- Read a string token. -/
def stringToken : Parse Tree := do
  let t ← token
  match t.lexeme with
  | .string value =>
    advance
    return .node .string ⟨t.start, t.stop⟩ value []
  | _ => reject

/-- Whether the current token is a string. -/
def atString : Parse Bool := do
  match (← token).lexeme with
  | .string _ => return true
  | _ => return false

/-- Whether a token is a string or a number. -/
def isLiteralKey (t : Token) : Bool :=
  match t.lexeme with
  | .string _ => true
  | .number => true
  | .bigint => true
  | _ => false

/-- Read a string or a number. -/
def literalKey : Parse Tree := do
  let t ← token
  match t.lexeme with
  | .string value =>
    advance
    return .node .string ⟨t.start, t.stop⟩ value []
  | .number =>
    advance
    return .node .number ⟨t.start, t.stop⟩ (String.ofList (t.here.take (t.stop - t.start))) []
  | .bigint =>
    advance
    return .node .bigint ⟨t.start, t.stop⟩ (String.ofList (t.here.take (t.stop - t.start))) []
  | _ => reject

/-- Read the key of a property: a word, a literal or an expression in brackets. -/
def propertyKey (rules : Rules) : Parse Tree := do
  let t ← token
  if isLiteralKey t then literalKey
  else if isMark t "[" then
    advance
    let e ← bracketed (rules .assignment)
    expectMark "]"
    finish .computedKey t.start "" [e]
  else anyName

/-- Read the name of an import or export: a word or a string. -/
def moduleName : Parse Tree := do
  if ← atString then stringToken else anyName

/-- Modifiers behind which these tokens continue a declaration. -/
def continuesModifier (t : Token) : Bool :=
  !t.afterBreak &&
    (isName t || isLiteralKey t || isMark t "[" || isMark t "\x7b" || isMark t "*" ||
      isMark t "..." ||
      match t.lexeme with
      | .hash _ => true
      | _ => false)

/-- Skip one of the given modifiers, if the next token continues a declaration. -/
def modifier? (allowed : List String) : Parse (Option String) := do
  let t ← token
  match t.lexeme with
  | .word name false =>
    if allowed.contains name && continuesModifier (← peek) then
      advance
      return some name
    return none
  | _ => return none

end Grammar
end Script
end StoryDocs
