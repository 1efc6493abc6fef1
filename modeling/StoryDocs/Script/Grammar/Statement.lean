import StoryDocs.Script.Grammar.Declaration

/-!
# Statements

A statement is read either where declarations are allowed or as the body of another statement, where a
function or class is a fault.
-/

namespace StoryDocs
namespace Script
namespace Grammar

/-- Read statements in braces. -/
def block (rules : Rules) : Parse Tree := do
  let start ← position
  expectMark "\x7b"
  let body ← bracketed (many (atMark "\x7d") (rules (.statement true)))
  expectMark "\x7d"
  finish .block start "" body

/-- Read an expression in brackets as the head of a statement. -/
def headExpression (rules : Rules) : Parse Tree := do
  expectMark "("
  let e ← bracketed (rules .expression)
  expectMark ")"
  return e

/-- Read the body of a loop. -/
def loopBody (rules : Rules) : Parse Tree :=
  within (fun s => { s with canBreak := true, canContinue := true }) (rules (.statement false))

/-- Read a jump behind its keyword. -/
def jump (start : Nat) (kind : Kind) : Parse Tree := do
  let s ← read
  let isBreak := kind == .breakStatement
  let allowed := if isBreak then s.canBreak else s.canContinue
  if ← eatSemicolon then
    faultIf !allowed
    finish kind start "" []
  else
    let label ← reference
    expectSemicolon
    faultIf (!allowed || !s.labels.contains label.name)
    finish kind start label.name []

/-- Read an `if` statement behind its keyword. -/
def ifStatement (rules : Rules) (start : Nat) : Parse Tree := do
  let test ← headExpression rules
  let yes ← rules (.statement false)
  let no ← if ← eatWord "else" then pure [← rules (.statement false)] else pure []
  finish .ifStatement start "" (test :: yes :: no)

/-- Read the test and the step of a counting loop behind its first semicolon. -/
def countingHead (rules : Rules) : Parse (List Tree) := do
  let test ←
    if ← atMark ";" then pure []
    else pure [← bracketed (rules .expression)]
  expectMark ";"
  let step ←
    if ← atMark ")" then pure []
    else pure [← bracketed (rules .expression)]
  return test ++ step

/-- Read the head of a loop over something behind its target. -/
def overHead (rules : Rules) (left : Tree) : Parse (Kind × List Tree) := do
  if ← eatWord "of" then
    let right ← bracketed (rules .assignment)
    return (.forOfStatement, [left, right])
  else
    expectWord "in"
    let right ← bracketed (rules .expression)
    return (.forInStatement, [left, right])

/-- Read the head of a loop that declares its variables. -/
def declaringHead (rules : Rules) (vars : Tree) : Parse (Kind × List Tree) := do
  if ← atWords ["of", "in"] then
    faultIf (vars.parts.length != 1 || vars.parts.any fun d => d.name != "")
    overHead rules vars
  else
    expectMark ";"
    let rest ← countingHead rules
    return (.forStatement, vars :: rest)

/-- Whether `async of` starts here and no arrow follows it. -/
def atAsyncOf : Parse Bool :=
  ahead do
    expectWord "async"
    expectWord "of"
    return !(← atMark "=>")

/-- Read the head of a `for` statement; a loop over a plain `async` has to wait. -/
def forHead (rules : Rules) (waits : Bool) : Parse (Kind × List Tree) := do
  let start ← position
  if (← atWords ["const", "var"]) || (← atLet) then
    let kind ← anyName
    let inOperator := kind.name != "var"
    let all ← within (fun s => { s with inOperator := inOperator, awaitsColon := false })
      (declarators rules kind.name true)
    let vars ← finish .variableList start kind.name all
    return ← declaringHead rules vars
  if (← atUsing) && !(← ahead (do expectWord "using"; atWord "of")) then
    let vars ← usingVariables rules true
    return ← declaringHead rules vars
  if ← eatMark ";" then return (.forStatement, ← countingHead rules)
  faultIf (!waits && (← atAsyncOf))
  let init ← within (fun s => { s with inOperator := false, awaitsColon := false })
    (rules .expression)
  if ← atWords ["of", "in"] then
    let target ← storeTarget init
    faultIf ((← typed) && (← atWord "in") && init.isLiteralPattern)
    overHead rules target
  else
    expectMark ";"
    faultIf init.hasLooseDefault
    let rest ← countingHead rules
    return (.forStatement, init :: rest)

/-- Read a `for` statement behind its keyword. -/
def forStatement (rules : Rules) (start : Nat) : Parse Tree := do
  let waits ← eatWord "await"
  expectMark "("
  let (kind, head) ← forHead rules waits
  expectMark ")"
  let body ← loopBody rules
  require !(waits && kind != .forOfStatement)
  finish kind start (if waits then "await" else "") (head ++ [body])

/-- Read a `while` statement behind its keyword. -/
def whileStatement (rules : Rules) (start : Nat) : Parse Tree := do
  let test ← headExpression rules
  let body ← loopBody rules
  finish .whileStatement start "" [test, body]

/-- Read a `do` statement behind its keyword; a semicolon behind it is not needed. -/
def doStatement (rules : Rules) (start : Nat) : Parse Tree := do
  let body ← loopBody rules
  expectWord "while"
  let test ← headExpression rules
  let _ ← eatSemicolon
  finish .doStatement start "" [body, test]

/-- Read a case of a `switch` statement. -/
def switchCase (rules : Rules) : Parse Tree := do
  let start ← position
  let test ←
    if ← eatWord "default" then pure []
    else
      expectWord "case"
      pure [← bracketed (rules .expression)]
  expectMark ":"
  let stop : Parse Bool := do
    return (← atWords ["case", "default"]) || (← atMark "\x7d")
  let body ← within (fun s => { s with canBreak := true }) (many stop (rules (.statement true)))
  finish .switchCase start (if test.isEmpty then "default" else "") (test ++ body)

/-- Read a `switch` statement behind its keyword. -/
def switchStatement (rules : Rules) (start : Nat) : Parse Tree := do
  let subject ← headExpression rules
  expectMark "\x7b"
  let cases ← many (atMark "\x7d") (switchCase rules)
  expectMark "\x7d"
  require ((cases.filter fun c => c.name == "default").length ≤ 1)
  finish .switchStatement start "" (subject :: cases)

/-- Read a `return` statement behind its keyword. -/
def returnStatement (rules : Rules) (start : Nat) : Parse Tree := do
  let value ← if ← atSemicolon then pure [] else pure [← bracketed (rules .expression)]
  expectSemicolon
  faultIf ((← typed) && !(← read).inFunction)
  finish .returnStatement start "" value

/-- Read a `throw` statement behind its keyword. -/
def throwStatement (rules : Rules) (start : Nat) : Parse Tree := do
  require !(← afterBreak)
  let value ← bracketed (rules .expression)
  expectSemicolon
  finish .throwStatement start "" [value]

/-- Read a `catch` clause behind its keyword. -/
def catchClause (rules : Rules) (start : Nat) : Parse Tree := do
  let param ←
    if ← eatMark "(" then
      let target ← rules .pattern
      let type ← if ← typed then annotation? rules else pure []
      expectMark ")"
      pure (target :: type)
    else pure []
  let body ← rules .block
  finish .catchClause start "" (param ++ [body])

/-- Read a `try` statement behind its keyword. -/
def tryStatement (rules : Rules) (start : Nat) : Parse Tree := do
  let body ← rules .block
  let here ← position
  let handler ← if ← eatWord "catch" then pure [← catchClause rules here] else pure []
  let finalizer ← if ← eatWord "finally" then pure [← rules .block] else pure []
  faultIf (handler.isEmpty && finalizer.isEmpty)
  finish .tryStatement start "" (body :: handler ++ finalizer)

/-- Read a statement behind its label and colon. -/
def labelled (rules : Rules) (start : Nat) (label : String) : Parse Tree := do
  faultIf ((← read).labels.contains label)
  faultIf (← atWord "function")
  let body ← within (fun s => { s with canBreak := true, labels := label :: s.labels })
    (rules (.statement false))
  finish .labelled start label [body]

/-- Read an expression statement or a labelled one. -/
def expressionStatement (rules : Rules) (start : Nat) : Parse Tree := do
  let e ← bracketed (rules .expression)
  if ← eatMarkIf (e.kind == .identifier) ":" then return ← labelled rules start e.name
  faultIf e.hasLooseDefault
  expectSemicolon
  finish .expressionStatement start "" [e]

/-- Read a class declaration with its decorators. -/
def decoratedClass (rules : Rules) : Parse Tree := do
  let decorators ← rules .decorators
  let start ← position
  if (← typed) && (← atWord "abstract") then advance
  let t ← rules (.classTail start .classDecl true)
  return .node t.kind t.span t.name (t.parts ++ [decorators])

/-- Read a declaration that only typed scripts have, if one starts here. -/
def typedStatement? (rules : Rules) (start : Nat) : Parse (Option Tree) := do
  if !(← typed) then return none
  if (← atWord "const") && isWord (← peek) "enum" then
    advance
    advance
    return some (← enumTail rules start)
  if ← atDeclare then
    return ← tryRule do
      advance
      match ← ambientDeclaration? rules start with
      | some t => return t
      | none => reject
  if (← atWord "global") && isMark (← peek) "\x7b" then
    advance
    return some (← globalTail rules start)
  typedDeclaration? rules start false

/-- Read a statement that starts with a keyword, if one does. -/
def keywordStatement? (rules : Rules) (start : Nat) (declarations : Bool) :
    Parse (Option Tree) := do
  match (← token).lexeme with
  | .word word false =>
    let behind (p : Parse Tree) : Parse (Option Tree) := do
      advance
      return some (← p)
    match word with
    | "var" => return some (← variableList rules)
    | "const" =>
      require declarations
      return some (← variableList rules)
    | "function" =>
      faultIf !declarations
      return some (← function rules .functionDecl true)
    | "class" =>
      faultIf !declarations
      return some (← rules (.classTail start .classDecl true))
    | "if" => behind (ifStatement rules start)
    | "for" => behind (forStatement rules start)
    | "while" => behind (whileStatement rules start)
    | "do" => behind (doStatement rules start)
    | "switch" => behind (switchStatement rules start)
    | "return" => behind (returnStatement rules start)
    | "throw" => behind (throwStatement rules start)
    | "try" => behind (tryStatement rules start)
    | "break" => behind (jump start .breakStatement)
    | "continue" => behind (jump start .continueStatement)
    | "debugger" => behind do
        expectSemicolon
        finish .debuggerStatement start "" []
    | "with" => behind do
        fault
        let e ← headExpression rules
        let body ← rules (.statement false)
        finish .withStatement start "" [e, body]
    | _ => return none
  | _ => return none

/-- Read a statement. -/
def statement (rules : Rules) (declarations : Bool) : Parse Tree := do
  let start ← position
  if ← eatMark ";" then return ← finish .emptyStatement start "" []
  if ← atMark "\x7b" then return ← rules .block
  if ← atMark "@" then return ← decoratedClass rules
  if let some t ← typedStatement? rules start then return t
  if let some t ← keywordStatement? rules start declarations then return t
  if ← atAsyncFunction then
    faultIf !declarations
    return ← function rules .functionDecl true
  if declarations && (← atLet) then return ← variableList rules
  if declarations && (← atUsing) then
    let t ← usingVariables rules false
    expectSemicolon
    return ← finish t.kind start t.name t.parts
  expressionStatement rules start

end Grammar
end Script
end StoryDocs
