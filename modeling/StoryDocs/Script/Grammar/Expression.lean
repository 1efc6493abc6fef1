import StoryDocs.Script.Grammar.Operator

/-!
# Expressions

From the inside out: primary expressions, members and calls, unary and binary operators, conditionals,
arrow functions, assignments and sequences.  An arrow function is looked for only where an assignment
may start, and is recognised by reading ahead to its arrow.
-/

namespace StoryDocs
namespace Script
namespace Grammar

/-- Read an expression in brackets. -/
def parenthesized (rules : Rules) : Parse Tree := do
  let start ← position
  expectMark "("
  let inner ← position
  let items ← bracketed (separated ")" (rules .assignment))
  let stop ← lastStop
  expectMark ")"
  require !items.isEmpty
  faultIf (items.any fun e =>
    e.kind == .object && e.parts.any fun p => p.kind == .shorthandDefault)
  match items with
  | [e] => finish .paren start "" [e]
  | _ => finish .paren start "" [.node .sequence ⟨inner, stop⟩ "" items]

/-- Read a class expression with its decorators. -/
def classExpression (rules : Rules) : Parse Tree := do
  let start ← position
  let decorators ← if ← atMark "@" then pure [← rules .decorators] else pure []
  let t ← rules (.classTail start .classExpr false)
  return .node t.kind t.span t.name (t.parts ++ decorators)

/-- The words that are expressions of their own. -/
def wordLiteral? (t : Token) : Option Kind :=
  if isWord t "this" then some .thisRef
  else if isWord t "null" then some .nullLiteral
  else if isWord t "true" || isWord t "false" then some .boolean
  else none

/-- Read an expression that no operator or suffix is part of. -/
def primary (rules : Rules) : Parse Tree := do
  let t ← token
  if isLiteralKey t then literalKey
  else if isMark t "(" then parenthesized rules
  else if isMark t "[" then array rules
  else if isMark t "\x7b" then rules .object
  else if isMark t "\x60" then rules (.template false)
  else if isMark t "/" || isMark t "/=" then regex
  else if isMark t "@" || isWord t "class" then classExpression rules
  else if isWord t "function" || (← atAsyncFunction) then function rules .function false
  else
    match wordLiteral? t with
    | some kind =>
      advance
      finish kind t.start (if kind == .boolean then (if isWord t "true" then "true" else "false") else "")
        []
    | none =>
      match t.lexeme with
      | .hash _ =>
        let name ← privateName
        require (← atWord "in")
        return name
      | _ => reference

/-- Whether type arguments just read can stand without a call: a line break or an operator follows, or
nothing that starts an expression. -/
def endsInstantiation : Parse Bool := do
  let t ← token
  if ["<", ">", "+", "-", "(", "\x60"].any (isMark t) then return false
  return t.afterBreak || (operatorAt t true).isSome || !startsExpression t

/-- Read type arguments of an expression; an equals sign must not touch their closing bracket. -/
def expressionTypes (rules : Rules) : Parse Tree := do
  let types ← rules .typeArguments
  let t ← token
  require !(t.start == types.span.stop &&
    (isMark t "=" || isMark t "==" || isMark t "===" || isMark t "=>"))
  return types

/-- The kind of a step behind a base: once a chain is optional, it stays so. -/
def stepKind (base : Tree) (kind : Kind) : Kind :=
  if base.kind == .optional then .optional else kind

/-- Read the name of a member behind its point. -/
def memberName (base : Tree) : Parse Tree := do
  match (← token).lexeme with
  | .hash _ =>
    require (base.kind != .superRef)
    privateName
  | _ => anyName

/-- Read the rest of an optional step behind `?.`. -/
def optionalStep (rules : Rules) (base : Tree) : Parse Tree := do
  let start := base.span.start
  if ← eatMark "[" then
    let i ← bracketed (rules .expression)
    expectMark "]"
    finish .optional start "[]" [base, i]
  else if (← atMark "(") || ((← typed) && (← atMark "<")) then
    let types ← if ← atMark "<" then pure [← rules .typeArguments] else pure []
    let args ← rules .arguments
    finish .optional start "()" (base :: types ++ [args])
  else
    let name ← memberName base
    finish .optional start "." [base, name]

/-- Read a tagged template. -/
def taggedTemplate (rules : Rules) (base : Tree) (types : List Tree) : Parse Tree := do
  faultIf (base.kind == .optional)
  let quoted ← rules (.template true)
  finish .taggedTemplate base.span.start "" (base :: types ++ [quoted])

/-- Read type arguments with the call, template or end of expression behind them. -/
def typedStep (rules : Rules) (base : Tree) (noCall : Bool) : Parse Tree := do
  let start := base.span.start
  let types ← expressionTypes rules
  if !noCall && (← atMark "(") then
    let args ← rules .arguments
    finish (stepKind base .call) start "()" [base, types, args]
  else if ← atMark "\x60" then taggedTemplate rules base [types]
  else
    require (← endsInstantiation)
    finish .instantiation start "" [base, types]

/-- Whether an import call has one or two arguments and none of them is spread. -/
def importsOnce (args : Tree) : Bool :=
  (args.parts.length == 1 || args.parts.length == 2) &&
    args.parts.all fun a => a.kind != .spread

/-- Read one step that needs no types behind a base: a member, an index, a call or a template. -/
def plainStep? (rules : Rules) (base : Tree) (noCall : Bool) : Parse (Option Tree) := do
  let start := base.span.start
  if ← atMark "?." then
    require !(noCall && base.kind == .newExpr)
    advance
    return some (← optionalStep rules base)
  if ← eatMark "[" then
    let i ← bracketed (rules .expression)
    expectMark "]"
    return some (← finish (stepKind base .index) start "[]" [base, i])
  if !noCall && (← atMark "(") then
    let args ← rules .arguments
    require (base.kind != .importRef || importsOnce args)
    return some (← finish (stepKind base .call) start "()" [base, args])
  if ← eatMark "." then
    let name ← memberName base
    return some (← finish (stepKind base .member) start "." [base, name])
  require !(base.kind == .superRef || base.kind == .importRef)
  if ← atMark "\x60" then return some (← taggedTemplate rules base [])
  return none

/-- Read one step behind a base: a non-null mark, type arguments or a step that needs no types. -/
def subscript? (rules : Rules) (base : Tree) (noCall : Bool) : Parse (Option Tree) := do
  if ← typed then
    if !(← afterBreak) && (← atMark "!") then
      require !(base.kind == .superRef || base.kind == .importRef)
      advance
      return some (← finish (stepKind base .nonNull) base.span.start "!" [base])
    if ← atMark "<" then
      if let some t ← attempt (typedStep rules base noCall) then return some t
  plainStep? rules base noCall

/-- Read all steps behind a base. -/
def subscripts (rules : Rules) (base : Tree) (noCall : Bool) : Parse Tree :=
  repeatFrom base fun e => do
    match ← subscript? rules e noCall with
    | some e => return .inl e
    | none => return .inr e

/-- Read what follows `new`. -/
def newExpression (rules : Rules) (start : Nat) : Parse Tree := do
  if ← eatMark "." then
    expectWord "target"
    let s ← read
    faultIf !(s.hasNewTarget || s.inParameters || s.inClassField)
    let e ← finish .metaProperty start "new.target" []
    return ← rules (.subscripts e true)
  let callee ← rules .memberOrNew
  require (callee.kind != .optional)
  let types? ←
    if (← typed) && (← atMark "<") then
      attempt (do let t ← rules .typeArguments; require (← atMark "("); return t)
    else pure none
  if ← atMark "(" then
    let args ← rules .arguments
    let e ← finish .newExpr start "" (callee :: types?.toList ++ [args])
    rules (.subscripts e true)
  else
    finish .newExpr start "" [callee]

/-- Read what follows `import` in an expression. -/
def importExpression (rules : Rules) (start : Nat) (noCall : Bool) : Parse Tree := do
  if ← eatMark "." then
    let name ← anyName
    if name.name == "meta" then
      let e ← finish .metaProperty start "import.meta" []
      rules (.subscripts e noCall)
    else
      require (name.name == "source" || name.name == "defer")
      let e ← finish .importRef start name.name []
      require (!noCall && (← atMark "("))
      rules (.subscripts e noCall)
  else
    let e ← finish .importRef start "" []
    require (!noCall && (← atMark "("))
    rules (.subscripts e noCall)

/-- Read a member expression, or one built by `new`, without calls at its end. -/
def memberOrNew (rules : Rules) : Parse Tree := do
  let start ← position
  if ← eatWord "new" then newExpression rules start
  else if ← eatWord "super" then
    let e ← finish .superRef start "" []
    rules (.subscripts e true)
  else if ← eatWord "import" then importExpression rules start true
  else
    let e ← primary rules
    rules (.subscripts e true)

/-- Whether a tag starts here. -/
def atElement : Parse Bool := do
  if !(← tagged) || !(← atMark "<") then return false
  let next ← peek
  return isName next || isMark next ">"

/-- Read an expression that can stand left of an operator: members, calls and tags. -/
def leftSide (rules : Rules) : Parse Tree := do
  let start ← position
  if ← atElement then
    let e ← rules .element
    expectMark ">"
    return e
  if ← atWord "super" then
    advance
    let e ← finish .superRef start "" []
    return ← rules (.subscripts e false)
  if ← atWord "import" then
    advance
    return ← importExpression rules start false
  let callee ← rules .memberOrNew
  let unapplied := callee.kind == .newExpr && callee.parts.length == 1
  if unapplied then return callee
  let types? ←
    if (← typed) && (← atMark "<") then
      attempt (do let t ← expressionTypes rules; require (← atMark "("); return t)
    else pure none
  if ← atMark "(" then
    let args ← rules .arguments
    let e ← finish (stepKind callee .call) start "()" (callee :: types?.toList ++ [args])
    rules (.subscripts e false)
  else return callee

/-- Read an awaited expression behind `await`. -/
def awaitExpression (rules : Rules) (start : Nat) : Parse Tree := do
  require !(← atMark "*")
  let s ← read
  faultIf ((s.inFunction && !s.inAsync) || (s.inParameters && !s.inFunction))
  let e ← rules .unary
  finish .awaitExpr start "" [e]

/-- The operators that stand in front of their operand. -/
def unaryOperator? (t : Token) : Option String :=
  (["delete", "void", "typeof"].find? (isWord t)).or (["+", "-", "~", "!"].find? (isMark t))

/-- Whether an operand of `delete` is a member. -/
def isDeletable : Tree → Bool
  | .node .member _ _ _ => true
  | .node .index _ _ _ => true
  | .node .optional _ name _ => name == "." || name == "[]"
  | .node .paren _ _ (e :: _) => isDeletable e
  | _ => false

/-- Read a type assertion in angle brackets behind its opening one. -/
def typeAssertion (rules : Rules) (start : Nat) : Parse Tree := do
  faultIf (← read).features.guarded
  if (← atWord "const") && isMark (← peek) ">" then
    advance
    advance
    let e ← rules .unary
    return ← finish .constAssertion start "" [e]
  let type ← rules .type
  expectMark ">"
  let e ← rules .unary
  finish .typeAssertion start "" [e, type]

/-- Read an expression with the operators in front of it and an update behind it. -/
def unary (rules : Rules) : Parse Tree := do
  let start ← position
  if ← eatMarkIf ((← typed) && !(← tagged)) "<" then return ← typeAssertion rules start
  if ← atMarks ["++", "--"] then
    let plus ← atMark "++"
    advance
    let e ← rules .unary
    checkStore e false
    return ← finish .update start (if plus then "++_" else "--_") [e]
  match unaryOperator? (← token) with
  | some op =>
    advance
    let e ← rules .unary
    if op == "delete" then
      faultIf (e.kind == .identifier || ((← typed) && !isDeletable e))
    finish .unary start op [e]
  | none =>
    if ← eatWord "await" then awaitExpression rules start
    else
      let e ← leftSide rules
      if !(← afterBreak) && (← atMarks ["++", "--"]) then
        checkStore e false
        let plus ← atMark "++"
        advance
        finish .update start (if plus then "_++" else "_--") [e]
      else return e

/-- Read `as` or `satisfies` and the type behind it. -/
def typedOperand (rules : Rules) (left : Tree) : Parse Tree := do
  let start := left.span.start
  if ← eatWord "as" then
    if ← eatWord "const" then finish .constAssertion start "as" [left]
    else
      let type ← freeType rules
      finish .asType start "" [left, type]
  else
    expectWord "satisfies"
    let type ← freeType rules
    finish .satisfiesType start "" [left, type]

/-- Read the binary operators that bind tighter than `least` behind a left operand. -/
def operators (rules : Rules) (left : Tree) (least : Nat) : Parse Tree :=
  repeatFrom left fun left => do
    if (← typed) && !(← afterBreak) && least < 7 && (← atWords ["as", "satisfies"]) then
      return .inl (← typedOperand rules left)
    match operatorAt (← token) (← read).inOperator with
    | none => return .inr left
    | some (op, binding) =>
      if binding ≤ least then return .inr left
      skipOperator op
      require !(op == "**" && (left.kind == .unary || left.kind == .awaitExpr))
      let operand ← rules .unary
      let right ← rules (.operators operand (if op == "**" then binding - 1 else binding))
      faultIf (mixesCoalescing op left || mixesCoalescing op right)
      return .inl (← finish .binary left.span.start op [left, right])

/-- Read a conditional expression, or one without a condition. -/
def conditional (rules : Rules) : Parse Tree := do
  let start ← position
  let first ← rules .unary
  let test ← rules (.operators first 0)
  if !(← eatMark "?") then return test
  let yes ← within (fun s => { s with inOperator := true, awaitsColon := true }) (rules .assignment)
  expectMark ":"
  let no ← rules .assignment
  finish .conditional start "" [test, yes, no]

/-- Read an arrow function in front of its body: parameters and, if wanted, the type of the result. -/
def arrowHead (rules : Rules) (withResult : Bool) : Parse (List Tree) := do
  expectMark "("
  let params ← bracketed (rules .parameters)
  expectMark ")"
  faultIf (params.parts.any fun p => (parameterTarget p).name == "this")
  let result ←
    if withResult && (← typed) && (← atMark ":") then pure [← returnType rules ":"] else pure []
  require (!(← afterBreak) && (← atMark "=>"))
  return params :: result

/-- Read the body of an arrow function behind its arrow. -/
def arrowBody (rules : Rules) (isAsync : Bool) : Parse Tree := do
  if ← atMark "\x7b" then rules (.functionBody isAsync false true)
  else
    within
      (fun s => { s with
        inAsync := isAsync, inGenerator := false, inFunction := true, canBreak := false,
        canContinue := false, labels := [] })
      (rules .assignment)

/-- Whether an arrow function with bracketed parameters starts here.  Where a colon is awaited, a
result type is believed only if that colon still follows the body. -/
def atArrow (rules : Rules) (isAsync : Bool) : Parse Bool := do
  if !(← atMark "(") then return false
  if ← ahead (do let _ ← arrowHead rules false; return true) then return true
  if !(← typed) then return false
  if (← read).awaitsColon then
    ahead do
      let _ ← arrowHead rules true
      advance
      let _ ← arrowBody rules isAsync
      atMark ":"
  else ahead (do let _ ← arrowHead rules true; return true)

/-- Read an arrow function with bracketed parameters. -/
def bracketArrow (rules : Rules) (start : Nat) (isAsync : Bool) (types : List Tree) : Parse Tree := do
  let head ← arrowHead rules true
  expectMark "=>"
  let body ← arrowBody rules isAsync
  let isBlock := body.kind == .block
  if isBlock then
    faultIf (asksStrict body && !(head.head?.map allPlain).getD true)
    let t ← token
    faultIf ((operatorAt t false).isSome && !isMark t "/" && !(t.afterBreak && isMark t "<"))
  finish .arrow start (if isAsync then "async" else "") (types ++ head ++ [body])

/-- Read an arrow function with one parameter that has no brackets. -/
def nameArrow (rules : Rules) (start : Nat) (isAsync : Bool) : Parse Tree := do
  let name ← bindingName
  require (!(← afterBreak))
  expectMark "=>"
  let body ← arrowBody rules isAsync
  let param : Tree := .node .parameter name.span "" [name]
  finish .arrow start (if isAsync then "async" else "") [.node .parameters name.span "" [param], body]

/-- Read an arrow function behind `async`, if one starts there. -/
def asyncArrow? (rules : Rules) : Parse (Option Tree) := do
  let start ← position
  let next ← peek
  if !(← atWord "async") || next.afterBreak then return none
  if isReference next && !isWord next "as" && !isWord next "satisfies" && !isWord next "of" then
    advance
    return some (← nameArrow rules start true)
  if isName next && (← ahead (do advance; advance; atMark "=>")) then
    advance
    return some (← nameArrow rules start true)
  if isMark next "(" && (← ahead (do advance; atArrow rules true)) then
    advance
    return some (← bracketArrow rules start true [])
  if (← typed) && isMark next "<" then
    return ← attempt do
      advance
      let types ← rules (.typeParameters false true)
      bracketArrow rules start true [types]
  return none

/-- Read an arrow function, if one starts here. -/
def arrow? (rules : Rules) : Parse (Option Tree) := do
  let start ← position
  if let some t ← asyncArrow? rules then return some t
  if (← atReference) || (← atWord "yield") then
    let next ← peek
    if isMark next "=>" && !next.afterBreak then
      return some (← nameArrow rules start false)
  if ← atArrow rules false then return some (← bracketArrow rules start false [])
  return none

/-- Read an arrow function behind type parameters. -/
def genericArrow (rules : Rules) : Parse Tree := do
  let start ← position
  let types ← rules (.typeParameters false true)
  bracketArrow rules start false [types]

/-- Whether type parameters could be taken for a tag: one name, no bound and no comma. -/
def looksLikeTag (types : Tree) : Bool :=
  types.name != "," && types.parts.length == 1 && types.parts.all fun p => p.parts.isEmpty

/-- Read a `yield` behind its keyword. -/
def yieldExpression (rules : Rules) (start : Nat) : Parse Tree := do
  faultIf ((← read).inParameters && !(← read).inFunction)
  if ← atMark "*" then
    if !(← afterBreak) then
      advance
      let e ← rules .assignment
      return ← finish .yieldExpr start "*" [e]
  if (← atSemicolon) || !startsExpression (← token) then
    finish .yieldExpr start "" []
  else
    let e ← rules .assignment
    finish .yieldExpr start "" [e]

/-- Read an assignment behind its target, if a sign follows. -/
def assignmentTail (rules : Rules) (left : Tree) : Parse Tree := do
  match assignmentAt (← token) with
  | none => return left
  | some sign =>
    let target ←
      if sign == "=" then storeTarget left
      else
        faultIf !left.isSimpleTarget
        require left.isTargetKind
        pure left
    skipOperator sign
    let value ← rules .assignment
    finish .assign left.span.start sign [target, value]

/-- Read an assignment that starts with no type parameters. -/
def plainAssignment (rules : Rules) : Parse Tree := do
  let start ← position
  if ← eatWordIf (← read).inGenerator "yield" then return ← yieldExpression rules start
  if let some t ← arrow? rules then return t
  let left ← conditional rules
  if [Kind.conditional, .binary, .unary, .update].contains left.kind then return left
  assignmentTail rules left

/-- Read an assignment.  At an angle bracket, typed scripts first look for a tag where tags are allowed,
then for an arrow function with type parameters. -/
def assignment (rules : Rules) : Parse Tree := do
  if !(← typed) || !(← atMark "<") then return ← plainAssignment rules
  let next ← peek
  if (← tagged) && (isName next || isMark next ">") then
    if let some t ← attempt (plainAssignment rules) then return t
  if isName next then
    if let some t ← attempt (genericArrow rules) then
      let guarded := (← read).features.guarded
      faultIf (guarded && (t.parts.head?.map looksLikeTag).getD false)
      return t
  plainAssignment rules

/-- Read assignments with commas between them. -/
def expression (rules : Rules) : Parse Tree := do
  let start ← position
  let first ← rules .assignment
  if !(← atMark ",") then return first
  let items ← repeatFrom [first] fun done => do
    if ← eatMark "," then
      let next ← rules .assignment
      return .inl (next :: done)
    return .inr done.reverse
  finish .sequence start "" items

end Grammar
end Script
end StoryDocs
