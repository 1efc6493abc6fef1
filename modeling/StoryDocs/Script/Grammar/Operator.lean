import StoryDocs.Script.Grammar.Target
import StoryDocs.Script.Grammar.Object

/-!
# Operators

Which marks and words are binary operators and assignment signs, and how tightly the operators bind.
Angle brackets come one at a time, so the operators made of them are read from the text.
-/

namespace StoryDocs
namespace Script
namespace Grammar

/-- Binary operators without angle brackets, with how tightly they bind. -/
def operatorTable : List (String × Nat) :=
  [("??", 1), ("||", 1), ("&&", 2), ("|", 3), ("^", 4), ("&", 5), ("==", 6), ("!=", 6), ("===", 6),
    ("!==", 6), ("+", 9), ("-", 9), ("*", 10), ("/", 10), ("%", 10), ("**", 11)]

/-- Binary operators of angle brackets; an assignment sign is none. -/
def angleOperator? : List Char → Option (String × Nat)
  | '<' :: '<' :: '=' :: _ => none
  | '<' :: '<' :: _ => some ("<<", 8)
  | '<' :: '=' :: _ => some ("<=", 7)
  | '<' :: _ => some ("<", 7)
  | '>' :: '>' :: '>' :: '=' :: _ => none
  | '>' :: '>' :: '>' :: _ => some (">>>", 8)
  | '>' :: '>' :: '=' :: _ => none
  | '>' :: '>' :: _ => some (">>", 8)
  | '>' :: '=' :: _ => some (">=", 7)
  | '>' :: _ => some (">", 7)
  | _ => none

/-- The binary operator at a token. -/
def operatorAt (t : Token) (inAllowed : Bool) : Option (String × Nat) :=
  match t.lexeme with
  | .mark text =>
    if text == "<" || text == ">" then angleOperator? t.here
    else operatorTable.find? fun (op, _) => op == text
  | .word "in" false => if inAllowed then some ("in", 7) else none
  | .word "instanceof" false => some ("instanceof", 7)
  | _ => none

/-- Assignment signs without angle brackets. -/
def assignmentMarks : List String :=
  ["=", "+=", "-=", "*=", "/=", "%=", "**=", "&=", "|=", "^=", "&&=", "||=", "??="]

/-- The assignment sign at a token. -/
def assignmentAt (t : Token) : Option String :=
  match t.lexeme with
  | .mark text =>
    if text == "<" || text == ">" then
      match t.here with
      | '<' :: '<' :: '=' :: _ => some "<<="
      | '>' :: '>' :: '>' :: '=' :: _ => some ">>>="
      | '>' :: '>' :: '=' :: _ => some ">>="
      | _ => none
    else assignmentMarks.find? (· == text)
  | _ => none

/-- Skip an operator that starts at the current token. -/
def skipOperator (op : String) : Parse Unit := do
  let t ← token
  faultIf t.faulty
  resumeAt (t.here.drop op.length) (t.start + op.length)

/-- Words that can start an expression although they are reserved. -/
def expressionWords : List String :=
  ["this", "super", "null", "true", "false", "function", "class", "new", "import", "delete",
    "typeof", "void", "await", "yield"]

/-- Whether an expression can start with a token. -/
def startsExpression (t : Token) : Bool :=
  match t.lexeme with
  | .word name _ => !isReserved name || expressionWords.contains name
  | .hash _ | .string _ | .number | .bigint => true
  | .mark m =>
    ["(", "[", "\x7b", "+", "-", "~", "!", "++", "--", "<", "\x60", "/", "/=", "@"].contains m
  | _ => false

/-- Record a fault unless a value can be stored into a tree by `=` or by an update. -/
def checkStore (target : Tree) (denyCalls : Bool) : Parse Unit := do
  if ← typed then
    faultIf ((target.kind == .identifier || target.deniesStore denyCalls) && !target.isSimpleTarget)
  else faultIf !target.isSimpleTarget

/-- Turn an expression left of `=` into a target. -/
def storeTarget (left : Tree) : Parse Tree := do
  if left.isLiteralPattern then
    faultIf !left.isElementLike
    return left.asPattern
  checkStore left true
  require left.isTargetKind
  return left

/-- Whether an operator must not be mixed with `??` without brackets. -/
def isLogical (op : String) : Bool :=
  op == "||" || op == "&&"

/-- Whether an operand mixes `??` with another logical operator. -/
def mixesCoalescing (op : String) (operand : Tree) : Bool :=
  operand.kind == .binary &&
    ((op == "??" && isLogical operand.name) || (isLogical op && operand.name == "??"))

end Grammar
end Script
end StoryDocs
