import StoryDocs.Script.Grammar.Expression

/-!
# Declarations

Variables, and the declarations of typed scripts: interfaces, type aliases, enumerations, namespaces,
abstract classes and ambient declarations.
-/

namespace StoryDocs
namespace Script
namespace Grammar

/-- Read one variable with its type and value; in the head of a loop the value may be missing. -/
def declarator (rules : Rules) (kind : String) (inHead : Bool) : Parse Tree := do
  let start ← position
  require !(kind != "var" && (← atWord "let"))
  let target ← rules .pattern
  if (← typed) && target.kind == .identifier then
    let _ ← eatMark "!"
  let type ← if ← typed then annotation? rules else pure []
  if inHead && (← atWords ["in", "of"]) then
    return ← finish .declarator start (if type.isEmpty then "" else ":") (target :: type)
  if ← eatMark "=" then
    let value ← rules .assignment
    faultIf value.hasLooseDefault
    return ← finish .declarator start "=" (target :: type ++ [value])
  if !(← read).ambient then
    faultIf (kind == "const" && !inHead)
    require (target.kind == .identifier || (kind == "const" && !inHead))
  finish .declarator start "" (target :: type)

/-- Read variables with commas between them. -/
def declarators (rules : Rules) (kind : String) (inHead : Bool) : Parse (List Tree) := do
  let first ← declarator rules kind inHead
  repeatFrom [first] fun done => do
    if ← eatMark "," then
      let next ← declarator rules kind inHead
      return .inl (next :: done)
    return .inr done.reverse

/-- Read a declaration of variables with its end. -/
def variableList (rules : Rules) : Parse Tree := do
  let start ← position
  let kind ← anyName
  let all ← declarators rules kind.name false
  expectSemicolon
  finish .variableList start kind.name all

/-- Whether `let` starts a declaration here. -/
def atLet : Parse Bool := do
  if !(← atWord "let") then return false
  let next ← peek
  return isName next || isMark next "[" || isMark next "\x7b"

/-- Whether a declaration of disposed variables starts here, with or without `await`. -/
def atUsing : Parse Bool := do
  ahead do
    if ← eatWord "await" then require !(← afterBreak)
    expectWord "using"
    let t ← token
    return !t.afterBreak && isReference t

/-- Read a declaration of disposed variables without its end. -/
def usingVariables (rules : Rules) (inHead : Bool) : Parse Tree := do
  let start ← position
  let _ ← eatWord "await"
  expectWord "using"
  let all ← declarators rules "using" inHead
  faultIf (all.any fun d => (d.name != "=" && !inHead) ||
    d.parts.head?.map Tree.kind != some .identifier)
  finish .variableList start "using" all

/-- Read a member of an enumeration. -/
def enumMember (rules : Rules) : Parse Tree := do
  let start ← position
  let key ← propertyKey rules
  faultIf (key.kind == .number || key.kind == .bigint)
  faultIf (key.kind == .computedKey && key.parts.any fun e => e.kind != .string)
  let value ← if ← eatMark "=" then pure [← rules .assignment] else pure []
  finish .enumMember start "" (key :: value)

/-- Read an enumeration from its name on. -/
def enumTail (rules : Rules) (start : Nat) : Parse Tree := do
  let name ← anyName
  expectMark "\x7b"
  let members ← bracketed (separated "\x7d" (enumMember rules))
  expectMark "\x7d"
  finish .enumDecl start name.name (name :: members)

/-- Read an interface from its name on. -/
def interfaceTail (rules : Rules) (start : Nat) : Parse Tree := do
  let name ← anyName
  faultIf (typeOnlyNames.contains name.name)
  let types ← typeParameters? rules true false
  let bases ← if ← eatWord "extends" then interfaceNames rules else pure []
  let body ← typeMembers rules
  finish .interfaceDecl start name.name (name :: types ++ bases ++ [body])

/-- Read a type alias from its name on. -/
def aliasTail (rules : Rules) (start : Nat) : Parse Tree := do
  let name ← anyName
  let types ← typeParameters? rules true false
  expectMark "="
  let type ← freeType rules
  expectSemicolon
  finish .typeAliasDecl start name.name (name :: types ++ [type])

/-- Read the items of a namespace in braces. -/
def moduleBlock (rules : Rules) : Parse Tree := do
  let start ← position
  expectMark "\x7b"
  let items ← bracketed (many (atMark "\x7d") (rules .item))
  expectMark "\x7d"
  finish .block start "" items

/-- Read a namespace from its name on; a dotted name nests. -/
def namespaceTail (rules : Rules) (start : Nat) : Parse Tree := do
  let name ← anyName
  let body ←
    if ← eatMark "." then
      let inner ← position
      rules (.namespaceTail inner)
    else rules .moduleBlock
  finish .moduleDecl start name.name [name, body]

/-- Read a module with a quoted name from its name on. -/
def quotedModuleTail (rules : Rules) (start : Nat) : Parse Tree := do
  let name ← stringToken
  if ← atMark "\x7b" then
    let body ← rules .moduleBlock
    finish .moduleDecl start name.name [name, body]
  else
    expectSemicolon
    finish .moduleDecl start name.name [name]

/-- Read what follows `global`. -/
def globalTail (rules : Rules) (start : Nat) : Parse Tree := do
  let body ← rules .moduleBlock
  finish .moduleDecl start "global" [body]

/-- Read a typed declaration that starts with a word which is no keyword elsewhere.  With `certain` the
word cannot mean anything else. -/
def typedDeclaration? (rules : Rules) (start : Nat) (certain : Bool) : Parse (Option Tree) := do
  let t ← token
  let next ← peek
  let sameLine := !next.afterBreak
  if isWord t "abstract" && (certain || (isWord next "class" && sameLine)) then
    advance
    return some (← rules (.classTail start .classDecl true))
  if isWord t "enum" && (certain || isReference next) then
    advance
    return some (← enumTail rules start)
  if isWord t "interface" && (certain || isReference next) then
    advance
    return some (← interfaceTail rules start)
  if isWord t "module" && sameLine then
    match next.lexeme with
    | .string _ =>
      advance
      return some (← quotedModuleTail rules start)
    | _ =>
      if certain || isReference next then
        advance
        return some (← rules (.namespaceTail start))
  if isWord t "namespace" && (certain || isReference next) then
    advance
    return some (← rules (.namespaceTail start))
  if isWord t "type" && (certain || (isReference next && sameLine)) then
    advance
    return some (← aliasTail rules start)
  return none

/-- Read an ambient declaration behind `declare`, if one follows. -/
def ambientDeclaration? (rules : Rules) (start : Nat) : Parse (Option Tree) := do
  faultIf (← read).ambient
  within (fun s => { s with ambient := true }) do
    if ← atWord "function" then
      return some ((← function rules .functionDecl true).startingAt start)
    if ← atWord "class" then return some (← rules (.classTail start .classDecl true))
    if (← atWord "const") && isWord (← peek) "enum" then
      advance
      advance
      return some (← enumTail rules start)
    if ← atWords ["const", "var", "let"] then
      return some ((← variableList rules).startingAt start)
    if ← eatWord "global" then return some (← globalTail rules start)
    typedDeclaration? rules start true

/-- Whether `declare` starts a declaration here rather than an expression. -/
def atDeclare : Parse Bool := do
  if !(← atWord "declare") then return false
  let next ← peek
  return ["function", "class", "const", "var", "let", "global", "abstract", "enum", "interface",
    "module", "namespace", "type"].any (isWord next)

end Grammar
end Script
end StoryDocs
