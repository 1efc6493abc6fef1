import StoryDocs.Script.Grammar.Function

/-!
# Classes and decorators

A class has a heritage and members.  Words such as `static` or `readonly` in front of a member are
modifiers unless what follows makes them the name of the member.
-/

namespace StoryDocs
namespace Script
namespace Grammar

/-- Continue the expression of a decorator with members, type arguments and calls. -/
def decoratorTail (rules : Rules) (start : Nat) (base : Tree) : Parse Tree :=
  repeatFrom base fun e => do
    if ← eatMark "." then
      let name ← anyName
      return .inl (← finish .member start "" [e, name])
    if (← typed) && (← atMark "<") then
      match ← attempt (do let t ← rules .typeArguments; require (← atMark "("); return t) with
      | some types =>
        let args ← rules .arguments
        return .inl (← finish .call start "" [e, types, args])
      | none => return .inr e
    if ← atMark "(" then
      let args ← rules .arguments
      return .inl (← finish .call start "" [e, args])
    return .inr e

/-- Read a decorator. -/
def decorator (rules : Rules) : Parse Tree := do
  let start ← position
  expectMark "@"
  let inner ← position
  let e ←
    if ← eatMark "(" then
      let e ← bracketed (rules .expression)
      expectMark ")"
      pure e
    else
      let base ← reference
      decoratorTail rules inner base
  finish .decorator start "" [e]

/-- Read the decorators that stand here. -/
def decorators (rules : Rules) : Parse Tree := do
  let start ← position
  let all ← many (return !(← atMark "@")) (decorator rules)
  finish .group start "" all

/-- The modifiers of a class member. -/
structure Modifiers where
  start : Nat
  isDeclared : Bool := false
  hasAccess : Bool := false
  isStatic : Bool := false
  isAbstract : Bool := false
  isOverride : Bool := false
  isReadonly : Bool := false
  isAccessor : Bool := false
  /-- Whether one of the last three kinds of modifiers or a repeated `static` was read. -/
  isModified : Bool := false

/-- Whether the parameters of a method start here. -/
def atMethod : Parse Bool := do
  return (← atMark "(") || ((← typed) && (← atMark "<"))

/-- Whether a property ends or gets its type or value here; `loose` counts line breaks. -/
def atProperty (loose : Bool) : Parse Bool := do
  if (← typed) && (← atMarks ["!", ":"]) then return true
  if ← atMarks ["=", "\x7d", ";"] then return true
  return loose && (← atSemicolon)

/-- Whether a word just read is the name of a member rather than a modifier. -/
def namesMember (loose : Bool) : Parse Bool := do
  return (← atMethod) || (← atProperty loose) || ((← typed) && (← atMark "?"))

/-- Whether a key is the name `constructor`. -/
def isConstructorKey (key : Tree) : Bool :=
  (key.kind == .name || key.kind == .string) && key.name == "constructor"

/-- Read the key of a class member. -/
def memberKey (rules : Rules) : Parse Tree := do
  match (← token).lexeme with
  | .hash name =>
    faultIf (name == "constructor")
    privateName
  | _ => propertyKey rules

/-- Read the rest of a property behind its key. -/
def classField (rules : Rules) (m : Modifiers) (key : Tree) (optional : Bool) : Parse Tree := do
  require !(isConstructorKey key)
  faultIf (key.kind == .privateName && (m.isDeclared || m.hasAccess))
  if (← typed) && !optional then
    let _ ← eatMark "!"
  let type ← if ← typed then annotation? rules else pure []
  let value ←
    if ← eatMark "=" then
      let e ← within (fun s => { s with inOperator := true, inClassField := true })
        (rules .assignment)
      pure [e]
    else pure []
  faultIf (m.isAbstract && !value.isEmpty)
  if !(← eatSemicolon) then fault
  finish .classField m.start "" (key :: type ++ value)

/-- Read the rest of a method behind its key. -/
def classMethod (rules : Rules) (m : Modifiers) (key : Tree) (kind : Kind)
    (isAsync isGenerator : Bool) : Parse Tree := do
  let tail ← functionTail rules isAsync isGenerator
  if kind == .getter then checkGetter tail
  if kind == .setter then checkSetter tail
  if key.kind == .privateName then faultIf m.hasAccess
  else faultIf (m.isAbstract && tail.hasBody)
  finish kind m.start "" (key :: tail.parts)

/-- Read the rest of a constructor behind its key; the node is named `body` if it has a body. -/
def constructorTail (rules : Rules) (m : Modifiers) (key : Tree) : Parse Tree := do
  if (← typed) && (← atMark "<") then
    let _ ← typeParameters? rules false true
    fault
  let tail ← functionTailWith rules (constructorParameters rules) false false
  faultIf ((← typed) && (m.isOverride || m.isStatic || m.isAbstract))
  faultIf (tail.parts.length != if tail.hasBody then 2 else 1)
  finish .constructor m.start (if tail.hasBody then "body" else "") (key :: tail.parts)

/-- Read a static block behind its keyword. -/
def staticBlock (rules : Rules) (start : Nat) : Parse Tree := do
  let body ← within
    (fun s => { s with
      inStaticBlock := true, inClassField := true, canBreak := false, canContinue := false,
      labels := [], inAsync := false, inFunction := false, hasNewTarget := true })
    (rules .block)
  finish .staticBlock start "" [body]

/-- Read modifiers that typed scripts allow in any order. -/
def memberModifiers (m : Modifiers) : Parse Modifiers := do
  if !(← typed) then return m
  repeatFrom m fun m => do
    if (← atWord "static") && isMark (← peek) "\x7b" then return .inr m
    match ← modifier? ["abstract", "readonly", "override", "static"] with
    | some "abstract" =>
      faultIf (m.isAbstract || m.isOverride)
      return .inl { m with isAbstract := true, isModified := true }
    | some "override" =>
      faultIf (m.isOverride || m.isReadonly || m.isDeclared || !(← read).hasSuperclass)
      return .inl { m with isOverride := true, isModified := true }
    | some "readonly" =>
      faultIf m.isReadonly
      return .inl { m with isReadonly := true, isModified := true }
    | some _ =>
      faultIf m.isOverride
      return .inl { m with isStatic := true, isModified := true }
    | none => return .inr m

/-- Read a method or property behind a key that is read. -/
def keyedMember (rules : Rules) (m : Modifiers) (key : Tree) : Parse Tree := do
  let optional ← if ← typed then eatMark "?" else pure false
  if ← atMethod then
    faultIf m.isDeclared
    require !m.isReadonly
    if isConstructorKey key && ((← typed) || !m.isStatic) then
      return ← constructorTail rules m key
    return ← classMethod rules m key .classMethod false false
  let nextGenerator := (← afterBreak) && (← atMark "*")
  let isPlain := key.kind == .name
  let accessor := isPlain && (key.name == "get" || key.name == "set") &&
    !(← atProperty false) && !nextGenerator
  if !accessor && (← atProperty true) then return ← classField rules m key optional
  if isPlain && key.name == "async" && !(← afterBreak) then
    if ← typed then
      if (← modifier? ["override"]).isSome then fault
    let isGenerator ← eatMark "*"
    let key ← memberKey rules
    require !(isConstructorKey key)
    faultIf m.isReadonly
    if ← typed then
      let _ ← eatMark "?"
    return ← classMethod rules m key .classMethod true isGenerator
  require accessor
  let kind := if key.name == "get" then Kind.getter else .setter
  let key ← memberKey rules
  faultIf (m.isReadonly || isConstructorKey key)
  classMethod rules m key kind false false

/-- Read a class member behind its modifiers. -/
def modifiedMember (rules : Rules) (m : Modifiers) : Parse Tree := do
  let m ← memberModifiers m
  if m.isStatic && (← atMark "\x7b") then
    faultIf (m.isModified || m.isDeclared || m.hasAccess)
    return ← staticBlock rules m.start
  if (← atWord "static") && isMark (← peek) "\x7b" then
    faultIf (m.isModified || m.isStatic)
    advance
    return ← staticBlock rules m.start
  if (← typed) && !m.isAbstract && !m.isOverride && !m.hasAccess && (← atIndexSignature) then
    return ← indexSignature rules m.start
  if ← eatMark "*" then
    let key ← memberKey rules
    faultIf (m.isReadonly || isConstructorKey key)
    return ← classMethod rules m key .classMethod false true
  let key ← memberKey rules
  keyedMember rules m key

/-- Read `word` and decide whether it names the member or modifies it. -/
def leadingWord (rules : Rules) (word : String) (loose : Bool) (m changed : Modifiers)
    (next : Modifiers → Parse Tree) : Parse Tree := do
  let here ← position
  if !(← eatWord word) then return ← next m
  let key ← finish .name here word []
  if word == "static" && (← atMark "\x7b") then next changed
  else if ← namesMember loose then keyedMember rules m key
  else next changed

/-- Read a class member. -/
def classMember (rules : Rules) : Parse Tree := do
  let start ← position
  if ← eatMark ";" then return ← finish .emptyMember start "" []
  let decorators ← if ← atMark "@" then pure [← rules .decorators] else pure []
  let m : Modifiers := { start := start }
  let accessor (m : Modifiers) : Parse Tree :=
    leadingWord rules "accessor" true m { m with isAccessor := true } (modifiedMember rules)
  let static (m : Modifiers) : Parse Tree :=
    leadingWord rules "static" false m { m with isStatic := true } accessor
  let access (m : Modifiers) : Parse Tree := do
    if !(← typed) then return ← static m
    let found ← modifier? ["public", "protected", "private"]
    static { m with hasAccess := found.isSome }
  let member ←
    if ← typed then leadingWord rules "declare" true m { m with isDeclared := true } access
    else access m
  return .node member.kind member.span member.name (member.parts ++ decorators)

/-- Whether at most one constructor has a body. -/
def oneConstructor (members : List Tree) : Bool :=
  (members.filter fun t => t.kind == .constructor && t.name == "body").length ≤ 1

/-- Read a superclass with its type arguments. -/
def superclass (rules : Rules) : Parse Tree := do
  let start ← position
  let base ← rules .memberOrNew
  let e ← rules (.subscripts base false)
  let types ← if (← typed) && (← atMark "<") then pure [← rules .typeArguments] else pure []
  finish .heritage start "" (e :: types)

/-- Read the dotted name of an interface with its type arguments. -/
def interfaceName (rules : Rules) : Parse Tree := do
  let start ← position
  let first ← anyName
  let names ← repeatFrom [first] fun done => do
    if ← eatMark "." then
      let next ← anyName
      return .inl (next :: done)
    return .inr done.reverse
  let types ← if ← atMark "<" then pure [← rules .typeArguments] else pure []
  finish .heritage start "" (names ++ types)

/-- Read the names of interfaces with commas between them. -/
def interfaceNames (rules : Rules) : Parse (List Tree) := do
  let first ← interfaceName rules
  repeatFrom [first] fun done => do
    if ← eatMark "," then
      let next ← interfaceName rules
      return .inl (next :: done)
    return .inr done.reverse

/-- Names that no class may have in typed scripts. -/
def typeOnlyNames : List String :=
  ["string", "null", "number", "object", "any", "unknown", "boolean", "bigint", "symbol", "void",
    "never", "intrinsic"]

/-- Read a class from its keyword on. -/
def classTail (rules : Rules) (start : Nat) (kind : Kind) (nameRequired : Bool) : Parse Tree := do
  expectWord "class"
  let named := nameRequired || ((← atReference) && !((← typed) && (← atWord "implements")))
  let name ← if named then pure [← bindingName] else pure []
  let label := (name.head?.map Tree.name).getD ""
  let isTyped ← typed
  faultIf (isTyped && typeOnlyNames.contains label)
  let types ← typeParameters? rules true true
  let super ← if ← eatWord "extends" then pure [← superclass rules] else pure []
  let implements ← if ← eatWordIf isTyped "implements" then interfaceNames rules else pure []
  let hasSuper := !super.isEmpty
  expectMark "\x7b"
  let members ← within
    (fun s => { s with
      hasSuperclass := hasSuper, inOperator := true, awaitsColon := false, plainType := false })
    (many (atMark "\x7d") (classMember rules))
  expectMark "\x7d"
  faultIf (!(← read).ambient && !oneConstructor members)
  finish kind start label (name ++ types ++ super ++ implements ++ members)

end Grammar
end Script
end StoryDocs
