import StoryDocs.Script.Grammar.Type

/-!
# Patterns and parameters

What a declaration or a parameter list binds: names, arrays and objects of patterns, defaults and rests.
-/

namespace StoryDocs
namespace Script
namespace Grammar

/-- Read a rest element behind its dots. -/
def restElement (rules : Rules) (start : Nat) : Parse Tree := do
  let target ← rules .pattern
  finish .rest start "" [target]

/-- Read the elements of an array pattern; nothing may follow a rest element. -/
def arrayElements (rules : Rules) : Parse (List Tree) :=
  repeatFrom (([] : List Tree), false) fun (done, seenRest) => do
    if ← atMark "]" then return .inr done.reverse
    let start ← position
    if ← eatMark "," then return .inl ((← finish .hole start "" []) :: done, seenRest)
    faultIf seenRest
    let isRest ← eatMark "..."
    let element ← if isRest then restElement rules start else rules .patternElement
    if !(← atMark "]") then
      expectMark ","
      faultIf (isRest && (← atMark "]"))
    return .inl (element :: done, seenRest || isRest)

/-- Read an array pattern. -/
def arrayPattern (rules : Rules) : Parse Tree := do
  let start ← position
  expectMark "["
  let elements ← bracketed (arrayElements rules)
  expectMark "]"
  finish .arrayPattern start "" elements

/-- Read a property of an object pattern. -/
def patternProperty (rules : Rules) : Parse Tree := do
  let start ← position
  if ← eatMark "..." then return ← restElement rules start
  let key ← propertyKey rules
  if ← eatMark ":" then
    let value ← rules .patternElement
    return ← finish .patternProperty start "" [key, value]
  require (key.kind == .name)
  if ← eatMark "=" then
    let value ← rules .assignment
    finish .withDefault start "" [key, value]
  else
    faultIf (isReserved key.name)
    finish .patternProperty start "" [key]

/-- Whether an object pattern rests at most once, last, and on a name. -/
def restsLast : List Tree → Bool
  | [] => true
  | [t] => t.kind != .rest || t.parts.all (fun p => p.kind == .identifier)
  | t :: ts => t.kind != .rest && restsLast ts

/-- Read an object pattern. -/
def objectPattern (rules : Rules) : Parse Tree := do
  let start ← position
  expectMark "\x7b"
  let properties ← bracketed (separated "\x7d" (patternProperty rules))
  let stop ← lastStop
  expectMark "\x7d"
  match properties.getLast? with
  | some last => faultIf (last.kind == .rest && last.span.stop != stop)
  | none => pure ()
  faultIf !(restsLast properties)
  finish .objectPattern start "" properties

/-- Read a pattern. -/
def pattern (rules : Rules) : Parse Tree := do
  if ← atMark "[" then arrayPattern rules
  else if ← atMark "\x7b" then objectPattern rules
  else bindingName

/-- Read a pattern with an optional default. -/
def patternElement (rules : Rules) : Parse Tree := do
  let start ← position
  let target ← rules .pattern
  if ← eatMark "=" then
    let value ← rules .assignment
    faultIf (← read).ambient
    finish .withDefault start "" [target, value]
  else return target

/-- Read the default of a parameter, if there is one. -/
def parameterDefault? (rules : Rules) (optional : Bool) : Parse (List Tree) := do
  let start ← position
  if !(← eatMark "=") then return []
  let value ← rules .assignment
  faultIf (optional || (← read).ambient)
  return [← finish .withDefault start "" [value]]

/-- Read a parameter behind its decorators. -/
def plainParameter (rules : Rules) (decorators : List Tree) : Parse Tree := do
  let start ← position
  if ← typed then
    let next ← peek
    if (← atWords ["public", "protected", "private", "readonly"]) &&
        (isName next || isMark next "\x7b" || isMark next "[") then
      fault
      let _ ← modifier? ["public", "protected", "private", "readonly"]
  let target ← rules .pattern
  let optional ← if ← typed then eatMark "?" else pure false
  let type ← if ← typed then annotation? rules else pure []
  let default ← parameterDefault? rules optional
  finish .parameter start "" (target :: type ++ default ++ decorators)

/-- Read a rest parameter behind its dots. -/
def restParameter (rules : Rules) (start : Nat) (decorators : List Tree) : Parse Tree := do
  let target ← rules .pattern
  if ← eatMark "=" then
    let _ ← rules .assignment
    fault
  let type ← if ← typed then annotation? rules else pure []
  if ← eatMarkIf (← typed) "?" then fault
  let rest ← finish .rest start "" [target]
  finish .parameter start "" (rest :: type ++ decorators)

/-- Read parameters up to the closing bracket; nothing may follow a rest parameter. -/
def parametersWith (rules : Rules) (plain : List Tree → Parse Tree) : Parse Tree := do
  let start ← position
  let params ← bracketed <| repeatFrom (([] : List Tree), false) fun (done, seenRest) => do
    if ← atMark ")" then return .inr done.reverse
    faultIf seenRest
    let decorators ← if ← atMark "@" then pure [← rules .decorators] else pure []
    let start ← position
    let isRest ← eatMark "..."
    let param ← if isRest then restParameter rules start decorators else plain decorators
    if !(← atMark ")") then
      expectMark ","
      faultIf (isRest && (← atMark ")"))
    return .inl (param :: done, seenRest || isRest)
  finish .parameters start "" params

/-- Read the parameters of a function. -/
def parameters (rules : Rules) : Parse Tree :=
  parametersWith rules (plainParameter rules)

/-- Read a parameter of a constructor, which may declare a property. -/
def constructorParameter (rules : Rules) (decorators : List Tree) : Parse Tree := do
  if !(← typed) then return ← plainParameter rules decorators
  let access ← modifier? ["public", "protected", "private"]
  let overriding ← modifier? ["override"]
  let readonly ← modifier? ["readonly"]
  let param ← plainParameter rules decorators
  if access.isSome || overriding.isSome || readonly.isSome then
    require ((param.parts.head?.map fun p => p.kind == .identifier).getD false)
  return param

/-- Read the parameters of a constructor. -/
def constructorParameters (rules : Rules) : Parse Tree :=
  parametersWith rules (constructorParameter rules)

/-- The pattern that a parameter binds. -/
def parameterTarget (param : Tree) : Tree :=
  param.parts.headD param

/-- Whether a parameter has a default. -/
def hasDefault (param : Tree) : Bool :=
  param.parts.any fun p => p.kind == .withDefault

/-- Whether all parameters are plain names. -/
def allPlain (params : Tree) : Bool :=
  params.parts.all fun p => (parameterTarget p).kind == .identifier && !hasDefault p

/-- How many parameters a caller passes: all but a leading `this`. -/
def passedCount (params : Tree) : Nat :=
  (params.parts.filter fun p => (parameterTarget p).name != "this").length

end Grammar
end Script
end StoryDocs
