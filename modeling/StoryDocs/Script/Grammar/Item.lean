import StoryDocs.Script.Grammar.Statement

/-!
# Module items

Imports and exports.  The source of an import or a re-export is the first string among the parts of its
node; an exported declaration is the only part of its node.
-/

namespace StoryDocs
namespace Script
namespace Grammar

/-- Read import attributes on the same line, if there are any. -/
def importAttributes? (rules : Rules) : Parse (List Tree) := do
  if !(← afterBreak) && (← atWords ["with", "assert"]) then
    advance
    return [← rules .object]
  return []

/-- Read the source of an import or re-export with its attributes and end. -/
def sourceTail (rules : Rules) : Parse (List Tree) := do
  let source ← stringToken
  let attributes ← importAttributes? rules
  expectSemicolon
  return source :: attributes

/-- Read `from` and the source behind it. -/
def fromClause (rules : Rules) : Parse (List Tree) := do
  expectWord "from"
  sourceTail rules

/-- Read what `import x =` stands for. -/
def importEqualsTail (start : Nat) (name : String) (typeOnly : Bool) : Parse Tree := do
  expectMark "="
  let target ←
    if (← atWord "require") && isMark (← peek) "(" then
      advance
      advance
      let source ← stringToken
      expectMark ")"
      pure source
    else
      faultIf typeOnly
      qualifiedName false
  expectSemicolon
  finish .importEquals start name [target]

/-- Read a name behind `type` in a list of imports or exports.  `type` and `as` are names themselves
where what follows leaves no other reading.  Gives the names read, whether the list entry is complete,
and whether the entry names a type only. -/
def typeEntry (binding : Parse Tree) (first : Tree) : Parse (List Tree × Bool × Bool) := do
  if !(← typed) || first.name != "type" || first.kind != .name || !isName (← token) then
    return ([first], false, false)
  let second ← anyName
  if second.name != "as" then return ([second], false, true)
  if !isName (← token) then return ([second], true, true)
  let third ← binding
  if third.name == "as" && isName (← token) then
    let fourth ← binding
    return ([second, fourth], true, true)
  return ([first, third], true, false)

/-- Read one imported name. -/
def importSpecifier (typeOnly : Bool) : Parse Tree := do
  let start ← position
  if ← atString then
    let imported ← stringToken
    expectWord "as"
    let name ← bindingName
    return ← finish .importSpecifier start "" [imported, name]
  let first ← anyName
  let (names, complete, isType) ← typeEntry bindingName first
  faultIf (typeOnly && isType)
  if complete then return ← finish .importSpecifier start "" names
  if ← eatWord "as" then
    let name ← bindingName
    finish .importSpecifier start "" (names ++ [name])
  else
    require (names.all fun n => !isReserved n.name)
    finish .importSpecifier start "" names

/-- Read names in braces. -/
def specifiers (entry : Parse Tree) : Parse (List Tree) := do
  expectMark "\x7b"
  let all ← separated "\x7d" entry
  expectMark "\x7d"
  return all

/-- Read an imported namespace behind its star. -/
def namespaceSpecifier (start : Nat) : Parse Tree := do
  expectWord "as"
  let name ← bindingName
  finish .importSpecifier start "*" [name]

/-- Whether a word such as `type` in front of a default import is not that import itself. -/
def precedesDefault : Parse Bool := do
  if !(← atReference) then return false
  return !(← atWord "from") || isWord (← peek) "from"

/-- The words in front of what an import names: `type`, or a phase. -/
inductive ImportLead where
  | plain
  | typeOnly
  | source
  | defer
  deriving DecidableEq

/-- Read the default import and the words in front of it. -/
def defaultImport (first : Tree) : Parse (ImportLead × List Tree) := do
  if (← typed) && first.name == "type" then
    if ← atMarks ["*", "\x7b"] then return (.typeOnly, [])
    if ← precedesDefault then
      let name ← bindingName
      return (.typeOnly, [name])
    if (← atWord "from") && isMark (← peek) "=" then
      let name ← anyName
      return (.typeOnly, [name])
  if first.name == "source" && (← precedesDefault) then
    let name ← bindingName
    return (.source, [name])
  if first.name == "defer" && (← atMark "*") then return (.defer, [])
  if first.name == "defer" && (← precedesDefault) then
    let name ← bindingName
    return (.defer, [name])
  return (.plain, [first])

/-- Read an import behind its keyword, or a type name given to a module. -/
def importTail (rules : Rules) (start : Nat) : Parse Tree := do
  if ← atString then
    let source ← sourceTail rules
    return ← finish .importDecl start "" source
  let mut lead := ImportLead.plain
  let mut named : List Tree := []
  if ← atReference then
    let first ← bindingName
    let (l, names) ← defaultImport first
    lead := l
    named := names
    if let some name := names.head? then
      if (← typed) && (← atMark "=") then
        return ← importEqualsTail start name.name (lead == .typeOnly)
      if !(← atWord "from") then expectMark ","
  let here ← position
  let others ←
    if ← eatMarkIf (lead != .source) "*" then pure [← namespaceSpecifier here]
    else if (lead == .plain || lead == .typeOnly) && (← atMark "\x7b") then
      specifiers (importSpecifier (lead == .typeOnly))
    else pure []
  let source ← fromClause rules
  finish .importDecl start "" (named ++ others ++ source)

/-- Read an import, or an expression statement that starts with `import`. -/
def importItem (rules : Rules) : Parse Tree := do
  let start ← position
  let next ← peek
  if isMark next "." || isMark next "(" then
    let e ← rules .expression
    let _ ← eatSemicolon
    return ← finish .expressionStatement start "" [e]
  expectWord "import"
  importTail rules start

/-- Read one exported name. -/
def exportSpecifier (typeOnly : Bool) : Parse Tree := do
  let start ← position
  let first ← moduleName
  let (names, complete, isType) ← typeEntry anyName first
  faultIf (typeOnly && isType)
  if ← eatWordIf (!complete) "as" then
    let exported ← moduleName
    finish .exportSpecifier start "" (names ++ [exported])
  else finish .exportSpecifier start "" names

/-- Whether the local name of an exported one is reserved or a string. -/
def exportsNothing (specifier : Tree) : Bool :=
  match specifier.parts with
  | name :: _ => name.kind == .string || isReserved name.name
  | [] => true

/-- Read an export list from its brace on. -/
def exportList (rules : Rules) (start : Nat) (typeOnly : Bool) (leading : List Tree) :
    Parse Tree := do
  let names ← specifiers (exportSpecifier typeOnly)
  if ← atWord "from" then
    let source ← fromClause rules
    return ← finish .exportNamed start "from" (leading ++ names ++ source)
  faultIf (!leading.isEmpty || names.any exportsNothing)
  let _ ← eatSemicolon
  finish .exportNamed start "" names

/-- Read an export of everything behind its star. -/
def exportStar (rules : Rules) (start : Nat) (leading : List Tree) : Parse Tree := do
  let here ← lastStop
  if leading.isEmpty && (← atWord "from") then
    let source ← fromClause rules
    return ← finish .exportAll start "from" source
  expectWord "as"
  let name ← moduleName
  let spec ← finish .exportSpecifier here "*" [name]
  let source ← fromClause rules
  finish .exportNamed start "from" (leading ++ spec :: source)

/-- Read a re-export of a default export under a name, and of more behind a comma. -/
def exportFrom (rules : Rules) (start : Nat) (name : Tree) : Parse Tree := do
  let spec : Tree := .node .exportSpecifier name.span "" [name]
  if ← eatMark "," then
    if ← eatMark "*" then exportStar rules start [spec]
    else exportList rules start false [spec]
  else
    let source ← fromClause rules
    finish .exportNamed start "from" (spec :: source)

/-- Read an exported class behind its decorators. -/
def exportedClass (rules : Rules) (nameRequired : Bool) : Parse Tree := do
  let decorators ← if ← atMark "@" then pure [← rules .decorators] else pure []
  let start ← position
  if (← typed) && (← atWord "abstract") then advance
  let t ← rules (.classTail start .classDecl nameRequired)
  return .node t.kind t.span t.name (t.parts ++ decorators)

/-- Whether a class starts here, with decorators or `abstract` in front. -/
def atClass : Parse Bool := do
  if (← atMark "@") || (← atWord "class") then return true
  let next ← peek
  return (← typed) && (← atWord "abstract") && isWord next "class" && !next.afterBreak

/-- Whether a default export is re-exported from another module here. -/
def atDefaultFrom : Parse Bool := do
  let next ← peek
  let quoted :=
    match next.lexeme with
    | .string _ => true
    | _ => false
  return !(← typed) &&
    (((← atWord "from") && quoted) ||
      ((← atMark ",") && (isMark next "\x7b" || isMark next "*")))

/-- Read a default export behind `default`. -/
def exportDefault (rules : Rules) (start : Nat) (keyword : Tree) : Parse Tree := do
  let declared (t : Tree) : Parse Tree := finish .exportDefaultDecl start "" [t]
  if ← atClass then return ← declared (← exportedClass rules false)
  if (← typed) && (← atWord "interface") then
    let here ← position
    advance
    return ← declared (← interfaceTail rules here)
  if (← atWord "function") || (← atAsyncFunction) then
    return ← declared (← function rules .functionDecl false)
  if ← atDefaultFrom then return ← exportFrom rules start keyword
  let e ← bracketed (rules .assignment)
  expectSemicolon
  finish .exportDefaultExpr start "" [e]

/-- Read an import, a value or a namespace that is exported as a whole, if one starts behind `export`. -/
def exportWhole? (rules : Rules) (start : Nat) : Parse (Option Tree) := do
  if ← eatWord "import" then
    let typeOnly ← eatWordIf (isReference (← peek)) "type"
    let name ← anyName
    return some (← importEqualsTail start name.name typeOnly)
  if ← eatMark "=" then
    let e ← bracketed (rules .expression)
    expectSemicolon
    return some (← finish .exportAssign start "" [e])
  if ← eatWord "as" then
    expectWord "namespace"
    let name ← reference
    expectSemicolon
    return some (← finish .exportNamespace start "" [name])
  return none

/-- Read an export that only typed scripts have, if one starts behind `export`. -/
def typedExport? (rules : Rules) (start : Nat) : Parse (Option Tree) := do
  if !(← typed) then return none
  let here ← position
  if ← atDeclare then
    let found ← tryRule do
      advance
      match ← ambientDeclaration? rules here with
      | some t => return t
      | none => reject
    if let some t := found then return some (← finish .exportDecl start "" [t])
  if ← atWords ["abstract", "enum", "interface", "module", "namespace", "type"] then
    let found ← attempt do
      match ← typedDeclaration? rules here true with
      | some t => return t
      | none => reject
    if let some t := found then return some (← finish .exportDecl start "" [t])
  exportWhole? rules start

/-- Read a declaration behind `export`, if one starts there. -/
def exportedDeclaration? (rules : Rules) : Parse (Option Tree) := do
  if ← atClass then return some (← exportedClass rules true)
  if (← atWord "function") || (← atAsyncFunction) then
    return some (← function rules .functionDecl true)
  if (← typed) && (← atWord "const") && isWord (← peek) "enum" then
    let here ← position
    advance
    advance
    return some (← enumTail rules here)
  if (← atWords ["var", "const"]) || (← atLet) then return some (← variableList rules)
  return none

/-- Read an export behind `export` and perhaps `type`. -/
def exportTail (rules : Rules) (start : Nat) (typeOnly : Bool) : Parse Tree := do
  if ← eatMark "*" then return ← exportStar rules start []
  if !typeOnly then
    let here ← token
    if ← eatWord "default" then
      let keyword : Tree := .node .name ⟨here.start, here.stop⟩ "default" []
      return ← exportDefault rules start keyword
    if let some t ← exportedDeclaration? rules then return ← finish .exportDecl start "" [t]
    if !(← typed) && isName (← token) then
      let name ← reference
      return ← exportFrom rules start name
  exportList rules start typeOnly []

/-- Read an export. -/
def exportItem (rules : Rules) : Parse Tree := do
  let start ← position
  expectWord "export"
  if let some t ← typedExport? rules start then return t
  let typeOnly ← eatWordIf (← typed) "type"
  exportTail rules start typeOnly

/-- Read an export behind decorators, which only typed scripts allow there. -/
def decoratedItem (rules : Rules) : Parse Tree := do
  if ← ahead (do let _ ← rules .decorators; atWord "export") then
    require (← typed)
    let decorators ← rules .decorators
    let t ← exportItem rules
    require ((t.kind == .exportDecl || t.kind == .exportDefaultDecl) &&
      t.parts.any fun d => d.kind == .classDecl)
    return .node t.kind t.span t.name (t.parts ++ [decorators])
  rules (.statement true)

/-- Read a module item. -/
def item (rules : Rules) : Parse Tree := do
  if ← atWord "import" then importItem rules
  else if ← atWord "export" then exportItem rules
  else if ← atMark "@" then decoratedItem rules
  else rules (.statement true)

end Grammar
end Script
end StoryDocs
