import StoryDocs.Script.Grammar.Literal

/-!
# Types

Conditional, function, union, operator, array and primary types, each level in terms of the next, with
the members of object types and the lists of type parameters and arguments.
-/

namespace StoryDocs
namespace Script
namespace Grammar

/-- Read a type where conditional types are allowed again. -/
def freeType (rules : Rules) : Parse Tree :=
  within (fun s => { s with plainType := false }) (rules .type)

/-- Read the type behind a colon, if there is a colon. -/
def annotation? (rules : Rules) : Parse (List Tree) := do
  if ← eatMark ":" then return [← freeType rules]
  return []

/-- Read a dotted name of any words. -/
def qualifiedName (lastReserved : Bool) : Parse Tree := do
  let start ← position
  let first ← anyName
  let parts ← repeatFrom [first] fun done => do
    if ← eatMark "." then
      let next ← if lastReserved then anyName else reference
      return .inl (next :: done)
    return .inr done.reverse
  finish .typeRef start "" parts

/-- Read type arguments on the same line, if there are any. -/
def typeArguments? (rules : Rules) : Parse (List Tree) := do
  if !(← afterBreak) && (← atMark "<") then return [← rules .typeArguments]
  return []

/-- Read a list of type arguments in angle brackets. -/
def typeArguments (rules : Rules) : Parse Tree := do
  let start ← position
  expectMark "<"
  let args ← separated ">" (freeType rules)
  expectMark ">"
  faultIf args.isEmpty
  finish .typeArguments start "" args

/-- Read one type parameter with its modifiers, constraint and default. -/
def typeParameter (rules : Rules) (variance const : Bool) : Parse Tree := do
  let start ← position
  let mods ← repeatFrom ([] : List String) fun done => do
    match ← modifier? ["public", "private", "protected", "readonly", "abstract", "override", "const",
        "in", "out"] with
    | some m => return .inl (m :: done)
    | none => return .inr done.reverse
  for m in mods do
    if m == "const" then faultIf !const
    else if m == "in" || m == "out" then faultIf !variance
    else fault
  faultIf (!mods.Nodup || mods == ["out", "in"])
  let name ← anyName
  let bounds ← if ← eatWord "extends" then pure [← freeType rules] else pure []
  let default ← if ← eatMark "=" then pure [← freeType rules] else pure []
  finish .typeParameter start name.name (bounds ++ default)

/-- Read a list of type parameters in angle brackets. -/
def typeParameters (rules : Rules) (variance const : Bool) : Parse Tree := do
  let start ← position
  expectMark "<"
  let params ← separated ">" (typeParameter rules variance const)
  let stop ← lastStop
  expectMark ">"
  faultIf params.isEmpty
  let trailing := stop != ((params.getLast?.map (fun p => p.span.stop)).getD stop)
  finish .typeParameters start (if trailing then "," else "") params

/-- Read type parameters, if there are any. -/
def typeParameters? (rules : Rules) (variance const : Bool) : Parse (List Tree) := do
  if (← typed) && (← atMark "<") then return [← rules (.typeParameters variance const)]
  return []

/-- Read the type behind `mark`, or a claim about a parameter such as `x is string`. -/
def returnType (rules : Rules) (mark : String) : Parse Tree := do
  expectMark mark
  let start ← position
  let next ← peek
  let asserts :=
    (← atWord "asserts") && !next.afterBreak && (isReference next || isWord next "this")
  if asserts then advance
  let t ← token
  let next ← peek
  let claims := (isReference t || isWord t "this") && isWord next "is" && !next.afterBreak
  if !asserts && !claims then freeType rules
  else
    let name ← anyName
    if ← (if claims then eatWord "is" else pure false) then
      let type ← freeType rules
      finish .typePredicate start name.name [type]
    else
      finish .typePredicate start name.name []

/-- Read the type that a function returns, if it is given. -/
def returnType? (rules : Rules) : Parse (List Tree) := do
  if (← typed) && (← atMark ":") then return [← returnType rules ":"]
  return []

/-- Read the parameters of a signature behind its opening bracket, with the closing one. -/
def signatureParameters (rules : Rules) : Parse Tree := do
  let params ← rules .parameters
  require (params.parts.all fun p => p.parts.all fun q => q.kind != .withDefault)
  expectMark ")"
  return params

/-- Read the key of a member of an object type. -/
def typeMemberKey (rules : Rules) : Parse Tree := do
  let t ← token
  match t.lexeme with
  | .hash _ =>
    fault
    privateName
  | _ => propertyKey rules

/-- End a member of an object type with a comma or like a statement. -/
def endMember : Parse Unit := do
  if !(← eatMark ",") then expectSemicolon

/-- Whether an index signature starts here. -/
def atIndexSignature : Parse Bool := do
  if !(← atMark "[") then return false
  ahead do
    advance
    require (← atReference)
    advance
    atMarks [":", ","]

/-- Read an index signature. -/
def indexSignature (rules : Rules) (start : Nat) : Parse Tree := do
  expectMark "["
  let name ← anyName
  if ← eatMark "," then fault else expectMark ":"
  let key ← freeType rules
  expectMark "]"
  let value ← annotation? rules
  endMember
  finish .indexSignature start name.name (key :: value)

/-- Read the signature of a call or of a construction. -/
def callSignature (rules : Rules) (start : Nat) : Parse Tree := do
  let types ← typeParameters? rules false true
  expectMark "("
  let params ← signatureParameters rules
  let result ← returnType? rules
  endMember
  finish .typeMember start "" (types ++ params :: result)

/-- Read a getter or setter signature. -/
def accessorSignature (rules : Rules) : Parse Tree := do
  let start ← position
  let isGetter ← eatWord "get"
  if !isGetter then expectWord "set"
  let key ← typeMemberKey rules
  expectMark "("
  if isGetter then
    expectMark ")"
    let result ← annotation? rules
    endMember
    finish .getter start "" (key :: result)
  else
    let params ← rules .parameters
    require !params.parts.isEmpty
    expectMark ")"
    endMember
    finish .setter start "" [key, params]

/-- Read a property or method signature. -/
def memberSignature (rules : Rules) (start : Nat) (readonly : Bool) : Parse Tree := do
  let key ← typeMemberKey rules
  let _ ← eatMark "?"
  if ← atMarks ["(", "<"] then
    require !readonly
    let t ← callSignature rules start
    return .node .typeMember t.span "" (key :: t.parts)
  let type ← annotation? rules
  endMember
  finish .typeMember start "" (key :: type)

/-- Read a member of an object type. -/
def typeMember (rules : Rules) : Parse Tree := do
  let start ← position
  if ← atMarks ["(", "<"] then return ← callSignature rules start
  if ← atWord "new" then
    let next ← peek
    if isMark next "(" || isMark next "<" then
      advance
      return ← callSignature rules start
  let readonly := (← modifier? ["readonly"]).isSome
  if ← atIndexSignature then return ← indexSignature rules start
  if !readonly && (← atWords ["get", "set"]) then
    if let some t ← attempt (accessorSignature rules) then return t
  memberSignature rules start readonly

/-- Read the members of an object type in braces. -/
def typeMembers (rules : Rules) : Parse Tree := do
  let start ← position
  expectMark "\x7b"
  let members ← many (atMark "\x7d") (typeMember rules)
  expectMark "\x7d"
  finish .typeObject start "" members

/-- Whether a mapped type starts at an opening brace. -/
def atMappedType : Parse Bool :=
  ahead do
    expectMark "\x7b"
    if ← atMarks ["+", "-"] then
      advance
      return ← atWord "readonly"
    let _ ← eatWord "readonly"
    expectMark "["
    require (← atReference)
    advance
    atWord "in"

/-- Skip `word` with an optional sign in front. -/
def signedWord (word : String) : Parse Unit := do
  if ← atMarks ["+", "-"] then
    advance
    expectWord word
  else
    let _ ← eatWord word

/-- Read a mapped type. -/
def mappedType (rules : Rules) : Parse Tree := do
  let start ← position
  expectMark "\x7b"
  signedWord "readonly"
  expectMark "["
  let name ← anyName
  expectWord "in"
  let keys ← freeType rules
  let as ← if ← eatWord "as" then pure [← freeType rules] else pure []
  expectMark "]"
  if ← atMarks ["+", "-"] then
    advance
    expectMark "?"
  else
    let _ ← eatMark "?"
  let type ← annotation? rules
  expectSemicolon
  expectMark "\x7d"
  finish .typeMapped start name.name (keys :: as ++ type)

/-- Whether a label such as `name:` or `name?:` of a tuple entry starts here. -/
def atTupleLabel : Parse Bool := do
  if !isName (← token) then return false
  let next ← peek
  if isMark next ":" then return true
  if !isMark next "?" then return false
  ahead do
    advance
    advance
    atMark ":"

/-- Read an entry of a tuple type. -/
def tupleEntry (rules : Rules) : Parse Tree := do
  let start ← position
  let isRest ← eatMark "..."
  let labelled ← atTupleLabel
  let mut optional := false
  if labelled then
    advance
    optional ← eatMark "?"
    expectMark ":"
  let isRest := (← eatMarkIf labelled "...") || isRest
  let type ← freeType rules
  if isRest then finish .typeRest start "" [type]
  else
    let marked ← eatMark "?"
    if optional || marked then finish .typeOptional start "" [type] else return type

/-- Whether a required entry follows an optional one. -/
def requiredAfterOptional : Bool → List Tree → Bool
  | _, [] => false
  | seen, t :: ts =>
    if t.kind == .typeOptional then requiredAfterOptional true ts
    else if t.kind == .typeRest then requiredAfterOptional seen ts
    else seen || requiredAfterOptional seen ts

/-- Read a tuple type. -/
def tupleType (rules : Rules) : Parse Tree := do
  let start ← position
  expectMark "["
  let entries ← separated "]" (tupleEntry rules)
  expectMark "]"
  require !(requiredAfterOptional false entries)
  finish .typeTuple start "" entries

/-- Read an imported type such as `import("m").T`. -/
def importType (rules : Rules) : Parse Tree := do
  let start ← position
  expectWord "import"
  expectMark "("
  let source ← stringToken
  let options ←
    if (← eatMark ",") && (← atMark "\x7b") then
      let o ← rules .object
      let _ ← eatMark ","
      pure [o]
    else pure []
  expectMark ")"
  let name ← if ← eatMark "." then pure [← qualifiedName false] else pure []
  let args ← if ← atMark "<" then pure [← rules .typeArguments] else pure []
  finish .typeImport start "" (source :: options ++ name ++ args)

/-- The names of the built-in types. -/
def typeKeywords : List String :=
  ["any", "boolean", "bigint", "never", "number", "object", "string", "symbol", "unknown",
    "undefined", "intrinsic", "null", "void"]

/-- Whether a token is a word that can start a reference to a type. -/
def isTypeName (t : Token) : Bool :=
  match t.lexeme with
  | .word name _ =>
    !hardReserved.contains name || ["void", "null", "await", "break"].contains name
  | _ => false

/-- Read a type that no operator or suffix is part of. -/
def primaryType (rules : Rules) : Parse Tree := do
  let t ← token
  if isLiteralKey t then
    let e ← literalKey
    finish .typeLiteral t.start "" [e]
  else if isMark t "\x60" then rules .typeTemplate
  else if isMark t "-" then
    advance
    let e ← literalKey
    require (e.kind == .number || e.kind == .bigint)
    finish .typeLiteral t.start "-" [e]
  else if isMark t "\x7b" then
    if ← atMappedType then mappedType rules else typeMembers rules
  else if isMark t "[" then tupleType rules
  else if isMark t "(" then
    advance
    let inner ← freeType rules
    expectMark ")"
    finish .typeParen t.start "" [inner]
  else if isWord t "true" || isWord t "false" then
    let e ← anyName
    finish .typeLiteral t.start e.name []
  else if isWord t "import" then importType rules
  else if isWord t "this" then
    advance
    if !(← afterBreak) && (← atWord "is") then
      advance
      let type ← freeType rules
      finish .typePredicate t.start "this" [type]
    else finish .typeKeyword t.start "this" []
  else if isWord t "typeof" then
    advance
    let target ← if ← atWord "import" then importType rules else qualifiedName true
    let args ← typeArguments? rules
    finish .typeQuery t.start "" (target :: args)
  else if isTypeName t then
    let next ← peek
    if isWord t "asserts" && isWord next "this" then
      advance
      advance
      if ← eatWord "is" then
        let type ← freeType rules
        finish .typePredicate t.start "this" [type]
      else finish .typePredicate t.start "this" []
    else if typeKeywords.any (isWord t) && !isMark next "." then
      let e ← anyName
      finish .typeKeyword t.start e.name []
    else
      let name ← qualifiedName true
      let args ← typeArguments? rules
      finish .typeRef t.start "" (name :: args)
  else reject

/-- Read array and index suffixes behind a primary type. -/
def arrayType (rules : Rules) : Parse Tree := do
  let start ← position
  let base ← primaryType rules
  repeatFrom base fun t => do
    if ← eatMarkIf (!(← afterBreak)) "[" then
      if ← eatMark "]" then
        return .inl (← finish .typeArray start "" [t])
      let i ← freeType rules
      expectMark "]"
      return .inl (← finish .typeIndexed start "" [t, i])
    return .inr t

/-- Read an inferred type with an optional constraint. -/
def inferType (rules : Rules) : Parse Tree := do
  let start ← position
  expectWord "infer"
  let name ← anyName
  let bound? ← attempt do
    expectWord "extends"
    let t ← rules .plainType
    require ((← read).plainType || !(← atMark "?"))
    return t
  finish .typeInfer start name.name bound?.toList

/-- Read a type with operators such as `keyof` in front. -/
def typeOperand (rules : Rules) : Parse Tree := do
  let t ← token
  if ["keyof", "unique", "readonly"].any (isWord t) then
    let op ← anyName
    let inner ← rules .typeOperand
    finish .typeOperator t.start op.name [inner]
  else if isWord t "infer" then inferType rules
  else arrayType rules

/-- Read operands with `mark` between them and an optional one in front. -/
def typeChain (mark : String) (kind : Kind) (operand : Parse Tree) : Parse Tree := do
  let start ← position
  let _ ← eatMark mark
  let first ← operand
  let all ← repeatFrom [first] fun done => do
    if ← eatMark mark then
      let next ← operand
      return .inl (next :: done)
    return .inr done.reverse
  match all with
  | [one] => return one
  | _ => finish kind start "" all

/-- Whether a function type starts at an opening bracket. -/
def atFunctionType (rules : Rules) : Parse Bool := do
  if ← atMark "<" then return true
  if !(← atMark "(") then return false
  ahead do
    advance
    if ← atMarks [")", "..."] then return true
    let _ ← modifier? ["public", "protected", "private", "readonly"]
    let t ← token
    if isName t then advance
    else if isMark t "\x7b" || isMark t "[" then
      let _ ← rules .pattern
    else reject
    if ← atMarks [":", ",", "?", "="] then return true
    expectMark ")"
    atMark "=>"

/-- Read the type of a function, or of a constructor behind `new`. -/
def functionType (rules : Rules) (kind : Kind) : Parse Tree := do
  let start ← position
  if kind == .typeConstructor then
    let _ ← eatWord "abstract"
    expectWord "new"
  let types ← typeParameters? rules false true
  expectMark "("
  let params ← signatureParameters rules
  let result ← returnType rules "=>"
  finish kind start "" (types ++ [params, result])

/-- Read a type that is not conditional. -/
def plainType (rules : Rules) : Parse Tree := do
  if ← atFunctionType rules then return ← functionType rules .typeFunction
  if (← atWord "new") || ((← atWord "abstract") && isWord (← peek) "new") then
    return ← functionType rules .typeConstructor
  typeChain "|" .typeUnion (typeChain "&" .typeIntersection (rules .typeOperand))

/-- Read a type. -/
def type (rules : Rules) : Parse Tree := do
  let start ← position
  let t ← plainType rules
  if (← afterBreak) || (← read).plainType then return t
  if !(← eatWord "extends") then return t
  let extending ← within (fun s => { s with plainType := true }) (rules .plainType)
  expectMark "?"
  let yes ← freeType rules
  expectMark ":"
  let no ← freeType rules
  finish .typeConditional start "" [t, extending, yes, no]

end Grammar
end Script
end StoryDocs
