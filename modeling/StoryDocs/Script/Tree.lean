import StoryDocs.Script.Token

/-!
# Trees of a script

A parsed script is a rose tree: every node has a kind, the range it was read from, a name (an
identifier, an operator or the value of a string; empty where there is none) and its parts in order.
`Tree.shape` forgets the ranges, so that two texts have the same tree when their shapes agree.
-/

namespace StoryDocs
namespace Script

/-- What a node of the tree is. -/
inductive Kind where
  -- names and literals
  | identifier | privateName | name | string | number | bigint | boolean | nullLiteral | regex
  | template | hole | missing
  -- expressions
  | thisRef | superRef | importRef | array | object | function | classExpr | arrow | paren
  | member | index | call | optional | newExpr | metaProperty | taggedTemplate
  | unary | update | binary | conditional | assign | sequence | yieldExpr | awaitExpr | spread
  | asType | satisfiesType | constAssertion | typeAssertion | nonNull | instantiation
  -- object and class members
  | property | shorthand | shorthandDefault | method | getter | setter | computedKey
  | classDecl | classField | classMethod | constructor | staticBlock | emptyMember | indexSignature
  | decorator | heritage
  -- patterns
  | objectPattern | arrayPattern | patternProperty | rest | withDefault | parameter | parameters
  -- tags
  | tag | fragment | tagName | tagText | tagExpression | tagAttribute | tagSpread
  -- types
  | typeRef | typeKeyword | typeLiteral | typeTemplate | typeObject | typeMember | typeFunction
  | typeConstructor | typeUnion | typeIntersection | typeOperator | typeArray | typeIndexed
  | typeTuple | typeParen | typeConditional | typeInfer | typeQuery | typeImport | typeMapped
  | typePredicate | typeParameter | typeParameters | typeArguments | typeOptional | typeRest
  -- statements
  | emptyStatement | block | variableList | declarator | expressionStatement | ifStatement
  | forStatement | forInStatement | forOfStatement | whileStatement | doStatement | switchStatement
  | switchCase | breakStatement | continueStatement | returnStatement | throwStatement
  | tryStatement | catchClause | labelled | debuggerStatement | withStatement | functionDecl
  | interfaceDecl | typeAliasDecl | enumDecl | enumMember | moduleDecl
  -- module items
  | importDecl | importSpecifier | importEquals | exportDecl | exportDefaultDecl
  | exportDefaultExpr | exportNamed | exportSpecifier | exportAll | exportAssign | exportNamespace
  -- several parts where one is expected
  | group
  deriving DecidableEq, Repr, Inhabited

/-- A node with its parts. -/
inductive Tree where
  | node (kind : Kind) (span : Span) (name : String) (parts : List Tree)
  deriving Inhabited

namespace Tree

/-- The kind of a node. -/
def kind : Tree → Kind
  | node k _ _ _ => k

/-- The range of a node. -/
def span : Tree → Span
  | node _ s _ _ => s

/-- The name of a node. -/
def name : Tree → String
  | node _ _ n _ => n

/-- The parts of a node. -/
def parts : Tree → List Tree
  | node _ _ _ ps => ps

/-- The same node started earlier. -/
def startingAt (start : Nat) : Tree → Tree
  | node k s n ps => node k ⟨start, s.stop⟩ n ps

end Tree

/-- A tree without ranges. -/
inductive Shape where
  | node (kind : Kind) (name : String) (parts : List Shape)

mutual

/-- Forget the ranges of a tree. -/
def Tree.shape : Tree → Shape
  | .node k _ n ps => .node k n (Tree.shapes ps)

/-- Forget the ranges of several trees. -/
def Tree.shapes : List Tree → List Shape
  | [] => []
  | t :: ts => t.shape :: Tree.shapes ts

end

end Script
end StoryDocs
