import StoryDocs.Script.Lexer
import StoryDocs.Script.Tree

/-!
# Grammar rules as parsers

A rule reads the current token and moves on.  It fails on text that has no reading at all; text that has
a reading but breaks a rule of modules is a *fault*, which is recorded and makes the module as a whole
unacceptable.  `attempt` tries a reading that may turn out wrong: faults inside it do not count.

The rules call each other through `Rule`, the names of the recursive ones; the loop over names is closed
once, with a bound on the nesting, in the module that parses scripts.
-/

namespace StoryDocs
namespace Script

/-- Which extensions of the script grammar are in force. -/
structure Features where
  /-- Types and declarations of types. -/
  types : Bool
  /-- Tags as expressions. -/
  tags : Bool
  /-- Type assertions and type parameters that look like tags are reserved. -/
  guarded : Bool := false
  deriving DecidableEq, Repr, Inhabited

/-- What a rule knows about the place it reads at. -/
structure Scope where
  features : Features
  /-- At least the length of the script. -/
  bound : Nat
  /-- Whether faults are passed over. -/
  lenient : Bool := false
  inAsync : Bool := false
  inGenerator : Bool := false
  inFunction : Bool := false
  /-- Whether `new.target` has a meaning. -/
  hasNewTarget : Bool := false
  inParameters : Bool := false
  inClassField : Bool := false
  inStaticBlock : Bool := false
  /-- Whether declarations are ambient. -/
  ambient : Bool := false
  /-- Whether the class around has a superclass. -/
  hasSuperclass : Bool := false
  canBreak : Bool := false
  canContinue : Bool := false
  labels : List String := []
  /-- Whether `in` is an operator here. -/
  inOperator : Bool := true
  /-- Whether the colon of a conditional is still to come. -/
  awaitsColon : Bool := false
  /-- Whether a conditional type must not start here. -/
  plainType : Bool := false

/-- Where a rule stands. -/
structure Cursor where
  token : Token
  /-- The end of the token before. -/
  lastStop : Nat := 0
  /-- Whether a fault was recorded. -/
  faulty : Bool := false

/-- A rule of the grammar. -/
abbrev Parse (α : Type) := ReaderT Scope (StateT Cursor Option) α

/-- The names of the rules that others call before they are defined. -/
inductive Rule where
  | expression
  | assignment
  | operators (left : Tree) (least : Nat)
  | unary
  | subscripts (base : Tree) (noCall : Bool)
  | memberOrNew
  | template (tagged : Bool)
  | typeTemplate
  | object
  | arguments
  | element
  | type
  | plainType
  | typeOperand
  | typeParameters (variance const : Bool)
  | typeArguments
  | parameters
  | pattern
  | patternElement
  | functionBody (isAsync isGenerator isArrow : Bool)
  | classTail (start : Nat) (kind : Kind) (nameRequired : Bool)
  | decorators
  | statement (declarations : Bool)
  | block
  | item
  | moduleBlock
  | namespaceTail (start : Nat)

/-- The rules by name. -/
abbrev Rules := Rule → Parse Tree

namespace Grammar

/-- Reject the text. -/
def reject {α : Type} : Parse α :=
  fun _ _ => none

/-- Go on only if the condition holds. -/
def require (condition : Bool) : Parse Unit :=
  if condition then pure () else reject

/-- The current token. -/
def token : Parse Token :=
  return (← get).token

/-- Where the current token starts. -/
def position : Parse Nat :=
  return (← get).token.start

/-- Where the token before ended. -/
def lastStop : Parse Nat :=
  return (← get).lastStop

/-- Record a fault, unless faults are passed over. -/
def fault : Parse Unit := do
  if !(← read).lenient then
    modify fun c => { c with faulty := true }

/-- Record a fault if the condition holds. -/
def faultIf (condition : Bool) : Parse Unit :=
  if condition then fault else pure ()

/-- Continue with the text `s` at an offset that ended at `stop`. -/
def resumeAt (s : List Char) (offset : Nat) : Parse Unit := do
  let bound := (← read).bound
  modify fun c => { c with token := Token.read bound s offset, lastStop := offset }

/-- Move on to the next token. -/
def advance : Parse Unit := do
  let t ← token
  match t.lexeme with
  | .bad => reject
  | .done => reject
  | _ =>
    faultIf t.faulty
    resumeAt t.rest t.stop

/-- The token behind the current one. -/
def peek : Parse Token := do
  let t ← token
  return Token.read (← read).bound t.rest t.stop

/-- Read in a changed scope. -/
def within {α : Type} (change : Scope → Scope) (p : Parse α) : Parse α :=
  fun s => p (change s)

/-- Read between brackets, where `in` is an operator and no colon is awaited. -/
def bracketed {α : Type} (p : Parse α) : Parse α :=
  within (fun s => { s with inOperator := true, awaitsColon := false }) p

/-- Whether types are part of the grammar. -/
def typed : Parse Bool :=
  return (← read).features.types

/-- Whether tags are part of the grammar. -/
def tagged : Parse Bool :=
  return (← read).features.tags

/-- Try a reading; a failure leaves the place unchanged, and its faults count. -/
def tryRule {α : Type} (p : Parse α) : Parse (Option α) := fun s c =>
  match p s c with
  | some (a, c') => some (some a, c')
  | none => some (none, c)

/-- Try a reading with faults passed over. -/
def attempt {α : Type} (p : Parse α) : Parse (Option α) :=
  tryRule (within (fun s => { s with lenient := true }) p)

/-- Whether the text ahead satisfies a test; the place is unchanged. -/
def ahead (p : Parse Bool) : Parse Bool := fun s c =>
  match p { s with lenient := true } c with
  | some (b, _) => some (b, c)
  | none => some (false, c)

/-- Whether a token is the given mark. -/
def isMark (t : Token) (m : String) : Bool :=
  match t.lexeme with
  | .mark text => text == m
  | _ => false

/-- Whether a token is the given word, spelled without escapes. -/
def isWord (t : Token) (w : String) : Bool :=
  match t.lexeme with
  | .word name escaped => name == w && !escaped
  | _ => false

/-- Whether a token is any word. -/
def isName (t : Token) : Bool :=
  match t.lexeme with
  | .word _ _ => true
  | _ => false

/-- Whether the current token is the given mark. -/
def atMark (m : String) : Parse Bool :=
  return isMark (← token) m

/-- Whether the current token is the given word. -/
def atWord (w : String) : Parse Bool :=
  return isWord (← token) w

/-- Whether the current token is one of the given marks. -/
def atMarks (ms : List String) : Parse Bool := do
  let t ← token
  return ms.any (isMark t)

/-- Whether the current token is one of the given words. -/
def atWords (ws : List String) : Parse Bool := do
  let t ← token
  return ws.any (isWord t)

/-- Skip a mark if it is there. -/
def eatMark (m : String) : Parse Bool := do
  if ← atMark m then
    advance
    return true
  return false

/-- Skip a word if it is there. -/
def eatWord (w : String) : Parse Bool := do
  if ← atWord w then
    advance
    return true
  return false

/-- Skip a mark if the condition holds and it is there. -/
def eatMarkIf (condition : Bool) (m : String) : Parse Bool :=
  if condition then eatMark m else return false

/-- Skip a word if the condition holds and it is there. -/
def eatWordIf (condition : Bool) (w : String) : Parse Bool :=
  if condition then eatWord w else return false

/-- Skip a mark that must be there. -/
def expectMark (m : String) : Parse Unit := do
  require (← eatMark m)

/-- Skip a word that must be there. -/
def expectWord (w : String) : Parse Unit := do
  require (← eatWord w)

/-- Whether a line break lies before the current token. -/
def afterBreak : Parse Bool :=
  return (← token).afterBreak

/-- Whether the script ends here. -/
def atEnd : Parse Bool :=
  return (← token).lexeme == .done

/-- Whether a statement may end here: at a semicolon, a closing brace, the end or a line break. -/
def atSemicolon : Parse Bool := do
  let t ← token
  return isMark t ";" || isMark t "\x7d" || t.lexeme == .done || t.afterBreak

/-- Skip a semicolon, or stay where a statement may end without one. -/
def eatSemicolon : Parse Bool := do
  if ← eatMark ";" then return true
  atSemicolon

/-- End a statement. -/
def expectSemicolon : Parse Unit := do
  require (← eatSemicolon)

/-- Build a node that ends where the token before ended. -/
def finish (kind : Kind) (start : Nat) (name : String) (parts : List Tree) : Parse Tree := do
  return .node kind ⟨start, ← lastStop⟩ name parts

/-- A node that stands for nothing, at the current place. -/
def missing : Parse Tree := do
  let n ← position
  return .node .missing ⟨n, n⟩ "" []

/-- Repeat a step on a state until it gives a result; `bound` limits the rounds. -/
def iterate {σ α : Type} (step : σ → Parse (σ ⊕ α)) : Nat → σ → Parse α
  | 0, _ => reject
  | bound + 1, s => do
    match ← step s with
    | .inl s => iterate step bound s
    | .inr a => return a

/-- Repeat a step within the bound of the script. -/
def repeatFrom {σ α : Type} (init : σ) (step : σ → Parse (σ ⊕ α)) : Parse α := do
  iterate step ((← read).bound + 1) init

/-- Read `entry` until `close` is next, with commas between entries and one allowed at the end. -/
def separated (close : String) (entry : Parse Tree) : Parse (List Tree) :=
  repeatFrom [] fun done => do
    if ← atMark close then return .inr done.reverse
    let t ← entry
    if !(← atMark close) then expectMark ","
    return .inl (t :: done)

/-- Read `entry` until `stop` holds. -/
def many (stop : Parse Bool) (entry : Parse Tree) : Parse (List Tree) :=
  repeatFrom [] fun done => do
    if ← stop then return .inr done.reverse
    let t ← entry
    return .inl (t :: done)

end Grammar

end Script
end StoryDocs
