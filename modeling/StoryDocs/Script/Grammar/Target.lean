import StoryDocs.Script.Tree

/-!
# Targets of assignments

An assignment stores into a simple target (a name or a member) or, where the sign is `=`, into an array
or object of targets, which is first read as a literal and then turned into a pattern.
-/

namespace StoryDocs
namespace Script

namespace Tree

/-- Whether a tree is a name or a member that one value can be stored into. -/
def isSimpleTarget : Tree → Bool
  | node .identifier _ name _ => name != "eval" && name != "arguments"
  | node .paren _ _ (e :: _) => e.isSimpleTarget
  | node .nonNull _ _ (e :: _) => e.isSimpleTarget
  | node .asType _ _ (e :: _) => e.isSimpleTarget
  | node .satisfiesType _ _ (e :: _) => e.isSimpleTarget
  | node .typeAssertion _ _ (e :: _) => e.isSimpleTarget
  | node .instantiation _ _ (e :: _) => e.isSimpleTarget
  | node .member _ _ (e :: _) => isObject e
  | node .index _ _ (e :: _) => isObject e
  | _ => false
where
  /-- Whether members of a tree can be stored into. -/
  isObject (e : Tree) : Bool :=
    match e.kind with
    | .optional => false
    | _ => true

/-- Whether the kind of a tree is one that can stand left of `=` besides arrays and objects. -/
def isTargetKind (t : Tree) : Bool :=
  match t.kind with
  | .identifier | .member | .index | .optional | .paren | .nonNull | .asType | .satisfiesType
  | .typeAssertion | .instantiation => true
  | _ => false

/-- Whether a typed script refuses to store into a tree that is no simple target. -/
def deniesStore (denyCalls : Bool) : Tree → Bool
  | node .string _ _ _ => false
  | node .number _ _ _ => false
  | node .bigint _ _ _ => false
  | node .boolean _ _ _ => false
  | node .nullLiteral _ _ _ => false
  | node .regex _ _ _ => false
  | node .call _ _ _ => denyCalls
  | node .binary _ _ _ => false
  | node .paren _ _ (e :: _) => e.deniesStore denyCalls
  | _ => true

/-- Whether a rest part stands in front of another part. -/
def spreadsEarly : List Tree → Bool
  | [] => false
  | [_] => false
  | t :: ts => t.kind == .spread || spreadsEarly ts

/-- Whether no comma follows a rest part at the end; a literal with a comma there is named so. -/
def endsWell (name : String) (parts : List Tree) : Bool :=
  name != "," || (parts.getLast?.map fun t => t.kind != .spread).getD true

mutual

/-- Whether a tree can be an element of a pattern. -/
def isElementLike : Tree → Bool
  | node .hole _ _ _ => true
  | node .assign _ name _ => name == "="
  | node .object _ name parts => !spreadsEarly parts && endsWell name parts && areProperties parts
  | node .array _ name parts => !spreadsEarly parts && endsWell name parts && areElements parts
  | t => t.isSimpleTarget

/-- Whether trees can be the elements of an array pattern. -/
def areElements : List Tree → Bool
  | [] => true
  | node .spread _ _ [e] :: ts => e.kind != .assign && isElementLike e && areElements ts
  | t :: ts => isElementLike t && areElements ts

/-- Whether trees can be the properties of an object pattern. -/
def areProperties : List Tree → Bool
  | [] => true
  | node .shorthand _ _ _ :: ts => areProperties ts
  | node .shorthandDefault _ _ _ :: ts => areProperties ts
  | node .property _ _ [_, e] :: ts => isElementLike e && areProperties ts
  | node .spread _ _ [e] :: ts => e.kind != .assign && isElementLike e && areProperties ts
  | _ => false

end

/-- Whether a tree is an array or object literal. -/
def isLiteralPattern (t : Tree) : Bool :=
  t.kind == .object || t.kind == .array

mutual

/-- Turn a literal into the pattern it is read as. -/
def asPattern : Tree → Tree
  | node .object s n ps => node .objectPattern s n (asPatterns ps)
  | node .array s n ps => node .arrayPattern s n (asPatterns ps)
  | node .property s n ps => node .patternProperty s n (asPatterns ps)
  | node .shorthand s n ps => node .patternProperty s n ps
  | node .shorthandDefault s n ps => node .withDefault s n ps
  | node .spread s n ps => node .rest s n (asPatterns ps)
  | node .assign s _ ps => node .withDefault s "" ps
  | t => t

/-- Turn literals into the patterns they are read as. -/
def asPatterns : List Tree → List Tree
  | [] => []
  | t :: ts => t.asPattern :: asPatterns ts

end

mutual

/-- Whether a default stands in an object literal that did not become a pattern; functions are judged
where their bodies are read. -/
def hasLooseDefault : Tree → Bool
  | node .shorthandDefault _ _ _ => true
  | node .function _ _ _ => false
  | node .arrow _ _ _ => false
  | node _ _ _ ps => haveLooseDefault ps

/-- Whether a default stands loose in one of the trees. -/
def haveLooseDefault : List Tree → Bool
  | [] => false
  | t :: ts => t.hasLooseDefault || haveLooseDefault ts

end

end Tree

end Script
end StoryDocs
