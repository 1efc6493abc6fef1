import StoryDocs.Script.Grammar.Item

/-!
# Modules

The rules of the grammar call each other by name; here the names are given their meanings, with a bound
on how deep the calls nest.  `Module.parse?` reads a whole script as a module.
-/

namespace StoryDocs
namespace Script

/-- The meaning of every rule, given the meanings of the rules it calls. -/
def Grammar.step (rules : Rules) : Rules
  | .expression => expression rules
  | .assignment => assignment rules
  | .operators left least => operators rules left least
  | .unary => unary rules
  | .subscripts base noCall => subscripts rules base noCall
  | .memberOrNew => memberOrNew rules
  | .template tagged => template rules tagged
  | .typeTemplate => typeTemplate rules
  | .object => object rules
  | .arguments => arguments rules
  | .element => element rules
  | .type => type rules
  | .plainType => plainType rules
  | .typeOperand => typeOperand rules
  | .typeParameters variance const => typeParameters rules variance const
  | .typeArguments => typeArguments rules
  | .parameters => parameters rules
  | .pattern => pattern rules
  | .patternElement => patternElement rules
  | .functionBody isAsync isGenerator isArrow => functionBody rules isAsync isGenerator isArrow
  | .classTail start kind nameRequired => classTail rules start kind nameRequired
  | .decorators => decorators rules
  | .statement declarations => statement rules declarations
  | .block => block rules
  | .item => item rules
  | .moduleBlock => moduleBlock rules
  | .namespaceTail start => namespaceTail rules start

/-- The meaning of every rule with calls nested at most to the given depth. -/
def Grammar.rules : Nat → Rules
  | 0 => fun _ => reject
  | depth + 1 => step (rules depth)

/-- Skip a first line that names an interpreter, and give the offset behind it. -/
def skipInterpreter : List Char → List Char × Nat
  | '#' :: '!' :: s =>
    let line := s.takeWhile fun c => !isLineBreak c
    (s.drop line.length, line.length + 2)
  | s => (s, 0)

/-- No text nests rules deeper than this. -/
def depthBound (text : List Char) : Nat :=
  64 * (text.length + 2)

/-- Readers of modules: the items of a text, or `none` when it is not acceptable. -/
abbrev ModuleReader := Features → List Char → Option (List Tree)

/-- Read a script as a module: its items in order, or `none` when it is not acceptable. -/
def Module.parse? (features : Features) (text : List Char) : Option (List Tree) :=
  let (body, offset) := skipInterpreter text
  let scope : Scope := { features := features, bound := text.length + 1 }
  let cursor : Cursor := { token := Token.read scope.bound body offset }
  let items := Grammar.many Grammar.atEnd (Grammar.rules (depthBound text) .item)
  match items scope cursor with
  | some (trees, last) => if last.faulty then none else some trees
  | none => none

end Script
end StoryDocs
