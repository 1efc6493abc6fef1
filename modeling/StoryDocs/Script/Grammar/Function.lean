import StoryDocs.Script.Grammar.Pattern

/-!
# Functions

Parameters, result and body of functions and methods.  In typed scripts a declaration may end without a
body; a body opens a scope of its own for `await`, `yield`, `break`, `continue` and labels.
-/

namespace StoryDocs
namespace Script
namespace Grammar

/-- The scope of a function body. -/
def bodyScope (isAsync isGenerator isArrow : Bool) (s : Scope) : Scope :=
  { s with
    inAsync := isAsync
    inGenerator := isGenerator
    inFunction := true
    hasNewTarget := s.hasNewTarget || !isArrow
    canBreak := false
    canContinue := false
    labels := []
    inOperator := true
    awaitsColon := false }

/-- The scope of a parameter list. -/
def parameterScope (isAsync isGenerator : Bool) (s : Scope) : Scope :=
  { s with
    inAsync := isAsync
    inGenerator := isGenerator
    inParameters := true
    inFunction := false }

/-- Read the body of a function in its own scope; an ambient function has none. -/
def functionBody (rules : Rules) (isAsync isGenerator isArrow : Bool) : Parse Tree := do
  faultIf ((← read).ambient && (← typed) && (← atMark "\x7b"))
  within (bodyScope isAsync isGenerator isArrow) (rules .block)

/-- Whether the directives at the start of a body ask for strict rules. -/
def asksStrict (body : Tree) : Bool :=
  (body.parts.takeWhile isDirective).any fun t =>
    t.parts.any fun e => e.name == "use strict" && e.span.stop - e.span.start == 12
where
  /-- Whether a statement is a string alone. -/
  isDirective (t : Tree) : Bool :=
    t.kind == .expressionStatement && t.parts.all fun e => e.kind == .string

/-- Parameters, result and body of a function. -/
structure FunctionTail where
  params : Tree
  /-- Type parameters, parameters, result and body, in order. -/
  parts : List Tree
  hasBody : Bool

/-- Read a function from its type parameters on, with the given reader of parameters. -/
def functionTailWith (rules : Rules) (params : Parse Tree) (isAsync isGenerator : Bool) :
    Parse FunctionTail :=
  within (fun s => { s with inClassField := false, awaitsColon := false, plainType := false }) do
    let types ← typeParameters? rules false true
    expectMark "("
    let params ← within (parameterScope isAsync isGenerator) params
    expectMark ")"
    let result ← returnType? rules
    let bodiless := (← typed) && !(← atMark "\x7b") && (← atSemicolon)
    if bodiless then
      let _ ← eatSemicolon
      faultIf (params.parts.any hasDefault)
      return ⟨params, types ++ params :: result, false⟩
    let body ← rules (.functionBody isAsync isGenerator false)
    faultIf (!allPlain params && asksStrict body)
    return ⟨params, types ++ params :: result ++ [body], true⟩

/-- Read a function from its type parameters on. -/
def functionTail (rules : Rules) (isAsync isGenerator : Bool) : Parse FunctionTail :=
  functionTailWith rules (rules .parameters) isAsync isGenerator

/-- Read a function behind `async`, if that was there. -/
def functionFrom (rules : Rules) (start : Nat) (isAsync : Bool) (kind : Kind)
    (nameRequired : Bool) : Parse Tree := do
  expectWord "function"
  let isGenerator ← eatMark "*"
  let named := nameRequired || (← atReference) || ((← typed) && (← atWord "this"))
  let name ← if named then pure [← bindingName] else pure []
  let tail ← functionTail rules isAsync isGenerator
  require (tail.hasBody || kind != .function)
  finish kind start ((name.head?.map Tree.name).getD "") (name ++ tail.parts)

/-- Whether `async function` starts here. -/
def atAsyncFunction : Parse Bool := do
  let next ← peek
  return (← atWord "async") && isWord next "function" && !next.afterBreak

/-- Read a function with an optional `async` in front. -/
def function (rules : Rules) (kind : Kind) (nameRequired : Bool) : Parse Tree := do
  let start ← position
  let isAsync ← eatWord "async"
  functionFrom rules start isAsync kind nameRequired

/-- Record a fault unless a getter takes no parameter. -/
def checkGetter (tail : FunctionTail) : Parse Unit :=
  faultIf (passedCount tail.params != 0)

/-- Record a fault unless a setter takes one parameter that is no rest. -/
def checkSetter (tail : FunctionTail) : Parse Unit :=
  faultIf (passedCount tail.params != 1 ||
    tail.params.parts.any fun p => (parameterTarget p).kind == .rest)

end Grammar
end Script
end StoryDocs
