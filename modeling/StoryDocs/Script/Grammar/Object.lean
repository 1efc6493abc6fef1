import StoryDocs.Script.Grammar.Tag

/-!
# Array and object literals, and arguments

The node of a literal is named `,` when a comma follows its last part, because a literal that turns out
to be a pattern must not have one behind a rest.
-/

namespace StoryDocs
namespace Script
namespace Grammar

/-- Read an expression, or a spread one behind dots. -/
def spreadable (rules : Rules) : Parse Tree := do
  let start ← position
  if ← eatMark "..." then
    let e ← rules .assignment
    finish .spread start "" [e]
  else rules .assignment

/-- Read the arguments of a call in brackets. -/
def arguments (rules : Rules) : Parse Tree := do
  let start ← position
  expectMark "("
  let args ← bracketed (separated ")" (spreadable rules))
  expectMark ")"
  finish .group start "" args

/-- The name of a literal: a comma if one stands behind its last part. -/
def literalName (parts : List Tree) (stop : Nat) : String :=
  match parts.getLast? with
  | some last => if last.kind == .hole || last.span.stop == stop then "" else ","
  | none => ""

/-- Read the elements of an array literal, with holes between commas. -/
def arrayItems (rules : Rules) : Parse (List Tree) :=
  repeatFrom [] fun done => do
    if ← atMark "]" then return .inr done.reverse
    let start ← position
    if ← eatMark "," then return .inl ((← finish .hole start "" []) :: done)
    let e ← spreadable rules
    if !(← atMark "]") then expectMark ","
    return .inl (e :: done)

/-- Read an array literal. -/
def array (rules : Rules) : Parse Tree := do
  let start ← position
  expectMark "["
  let items ← bracketed (arrayItems rules)
  let stop ← lastStop
  expectMark "]"
  finish .array start (literalName items stop) items

/-- Read a method of an object literal behind its key. -/
def objectMethod (rules : Rules) (start : Nat) (kind : Kind) (key : Tree)
    (isAsync isGenerator : Bool) : Parse Tree := do
  let tail ← functionTail rules isAsync isGenerator
  if kind == .getter then checkGetter tail
  if kind == .setter then checkSetter tail
  finish kind start "" (key :: tail.parts)

/-- Read a property that is only a name, or a name and a default that a pattern may have. -/
def shorthand (rules : Rules) (start : Nat) (key : Tree) : Parse Tree := do
  faultIf (isReserved key.name)
  let target : Tree := .node .identifier key.span key.name []
  if ← eatMark "=" then
    let value ← rules .assignment
    finish .shorthandDefault start "" [target, value]
  else finish .shorthand start "" [target]

/-- Read a property of an object literal. -/
def objectProperty (rules : Rules) : Parse Tree := do
  let start ← position
  if ← atMark "..." then return ← spreadable rules
  if ← eatMark "*" then
    let key ← propertyKey rules
    return ← objectMethod rules start .method key false true
  let key ← propertyKey rules
  if ← eatMark ":" then
    let value ← rules .assignment
    return ← finish .property start "" [key, value]
  if ← atMethod then return ← objectMethod rules start .method key false false
  require (key.kind == .name)
  if ← eatMark "?" then fault
  if ← atMarks ["=", ",", "\x7d"] then return ← shorthand rules start key
  if key.name == "get" || key.name == "set" then
    let kind := if key.name == "get" then Kind.getter else .setter
    let key ← propertyKey rules
    objectMethod rules start kind key false false
  else
    require (key.name == "async")
    let isGenerator ← eatMark "*"
    let key ← propertyKey rules
    objectMethod rules start .method key true isGenerator

/-- Read an object literal. -/
def object (rules : Rules) : Parse Tree := do
  let start ← position
  expectMark "\x7b"
  let properties ← bracketed (separated "\x7d" (objectProperty rules))
  let stop ← lastStop
  expectMark "\x7d"
  finish .object start (literalName properties stop) properties

end Grammar
end Script
end StoryDocs
