import StoryDocs.Config.Preferences
import StoryDocs.Config.Yaml.Scanner

/-!
# Indented configurations

The tokens of a configuration make up one document, a tree of scalars, sequences and mappings.  An alias
stands for the node that has its anchor.
-/

namespace StoryDocs
namespace Config
namespace Yaml

/-- A node of a document. -/
inductive Node where
  | scalar (text : List Char) (style : ScalarStyle) (tag : Option (List Char))
  | sequence (items : List Node)
  | mapping (pairs : List (Node × Node))
  deriving Repr, Inhabited

namespace Node

/-- The node where nothing is written. -/
def empty : Node :=
  .scalar [] .plain none

end Node

/-- The state of reading nodes. -/
structure Reader where
  tokens : List Token
  /-- The nodes of the anchors so far, the latest first; a collection stands for itself only when it is
  complete. -/
  anchors : List (List Char × Node) := []
  /-- What tag handles stand for. -/
  handles : List (List Char × List Char) := []
  deriving Inhabited

/-- Reading that may fail. -/
abbrev Read := StateT Reader Option

/-- Fail. -/
def refuse {α : Type} : Read α :=
  fun _ => none

/-- The next token. -/
def peek : Read (Option Token) := do
  return (← get).tokens.head?

/-- Go behind the next token. -/
def next : Read Unit :=
  modify fun r => { r with tokens := r.tokens.tail }

/-- Go behind the next token if it is the given one. -/
def nextIf (t : Token) : Read Bool := do
  if (← peek) == some t then
    next
    return true
  else return false

/-- Whether the next token is one of the given ones. -/
def atAny (ts : List Token) : Read Bool := do
  match ← peek with
  | some t => return ts.contains t
  | none => return false

/-- The meaning of the handles that need no directive. -/
def defaultHandles : List (List Char × List Char) :=
  [(['!'], ['!']), (['!', '!'], "tag:yaml.org,2002:".toList)]

/-- The full text of a tag. -/
def resolve (handle suffix : List Char) : Read (List Char) := do
  if handle.isEmpty then return suffix
  else
    match ((← get).handles ++ defaultHandles).lookup handle with
    | some lead => return lead ++ suffix
    | none => refuse

/-- Read a tag, when there is one. -/
def tagProperty : Read (Option (List Char)) := do
  match ← peek with
  | some (.tag handle suffix) =>
    next
    return some (← resolve handle suffix)
  | _ => return none

/-- Read an anchor, when there is one. -/
def anchorProperty : Read (Option (List Char)) := do
  match ← peek with
  | some (.anchor name) =>
    next
    return some name
  | _ => return none

/-- Read an anchor and a tag in any order. -/
def properties : Read (Option (List Char) × Option (List Char)) := do
  match ← anchorProperty with
  | some name => return (some name, ← tagProperty)
  | none =>
    match ← tagProperty with
    | some tag => return (← anchorProperty, some tag)
    | none => return (none, none)

/-- Give an anchor its node. -/
def setAnchor (name : Option (List Char)) (n : Node) : Read Unit :=
  match name with
  | some name => modify fun r => { r with anchors := (name, n) :: r.anchors }
  | none => pure ()

/-- The node of an anchor or tag with nothing behind it. -/
def absent (anchor tag : Option (List Char)) : Read Node := do
  if anchor.isSome || tag.isSome then
    let n := Node.scalar [] .plain tag
    setAnchor anchor n
    return n
  else refuse

mutual

/-- Read a node: `block` allows block collections, and `indentless` a sequence whose hyphens are not
indented.  `fuel` bounds the number of steps. -/
def node (block indentless : Bool) : Nat → Read Node
  | 0 => refuse
  | fuel + 1 => do
    match ← peek with
    | some (.alias name) =>
      next
      match (← get).anchors.lookup name with
      | some n => return n
      | none => refuse
    | _ =>
      let (anchor, tag) ← properties
      match ← peek with
      | some (.scalar text style) =>
        next
        let n := Node.scalar text style tag
        setAnchor anchor n
        return n
      | some .blockEntry =>
        if indentless then
          setAnchor anchor (.sequence [])
          let n := Node.sequence (← indentlessItems fuel)
          setAnchor anchor n
          return n
        else absent anchor tag
      | some .blockSequence =>
        if block then
          next
          setAnchor anchor (.sequence [])
          let n := Node.sequence (← blockItems fuel)
          setAnchor anchor n
          return n
        else absent anchor tag
      | some .blockMapping =>
        if block then
          next
          setAnchor anchor (.mapping [])
          let n := Node.mapping (← blockPairs fuel)
          setAnchor anchor n
          return n
        else absent anchor tag
      | some .flowSequenceStart =>
        next
        setAnchor anchor (.sequence [])
        let n := Node.sequence (← flowItems true fuel)
        setAnchor anchor n
        return n
      | some .flowMappingStart =>
        next
        setAnchor anchor (.mapping [])
        let n := Node.mapping (← flowPairs true fuel)
        setAnchor anchor n
        return n
      | _ => absent anchor tag

/-- Read a node unless one of the given tokens is next. -/
def nodeUnless (block indentless : Bool) (stops : List Token) : Nat → Read Node
  | 0 => refuse
  | fuel + 1 => do
    if ← atAny stops then return Node.empty else node block indentless fuel

/-- Read the items of an indented sequence. -/
def blockItems : Nat → Read (List Node)
  | 0 => refuse
  | fuel + 1 => do
    if ← nextIf .blockEntry then
      let n ← nodeUnless true false [.blockEntry, .blockEnd] fuel
      return n :: (← blockItems fuel)
    else if ← nextIf .blockEnd then return []
    else refuse

/-- Read the items of a sequence that is not indented. -/
def indentlessItems : Nat → Read (List Node)
  | 0 => refuse
  | fuel + 1 => do
    if ← nextIf .blockEntry then
      let n ← nodeUnless true false [.blockEntry, .key, .value, .blockEnd] fuel
      return n :: (← indentlessItems fuel)
    else return []

/-- Read the pairs of an indented mapping. -/
def blockPairs : Nat → Read (List (Node × Node))
  | 0 => refuse
  | fuel + 1 => do
    if ← nextIf .key then
      let k ← nodeUnless true true [.key, .value, .blockEnd] fuel
      let v ←
        if ← nextIf .value then nodeUnless true true [.key, .value, .blockEnd] fuel
        else pure Node.empty
      return (k, v) :: (← blockPairs fuel)
    else if ← nextIf .blockEnd then return []
    else refuse

/-- Read the items of a sequence in brackets. -/
def flowItems (first : Bool) : Nat → Read (List Node)
  | 0 => refuse
  | fuel + 1 => do
    if ← nextIf .flowSequenceEnd then return []
    else
      if !first then
        if !(← nextIf .flowEntry) then refuse
      if ← nextIf .flowSequenceEnd then return []
      else if ← nextIf .key then
        let pair ← flowPair fuel
        return .mapping [pair] :: (← flowItems false fuel)
      else
        let n ← node false false fuel
        return n :: (← flowItems false fuel)

/-- Read a single pair in a sequence, behind its mark. -/
def flowPair : Nat → Read (Node × Node)
  | 0 => refuse
  | fuel + 1 => do
    let k ←
      if ← atAny [.value, .flowEntry, .flowSequenceEnd] then
        next
        pure Node.empty
      else node false false fuel
    let v ←
      if ← nextIf .value then nodeUnless false false [.flowEntry, .flowSequenceEnd] fuel
      else pure Node.empty
    return (k, v)

/-- Read the pairs of a mapping in braces. -/
def flowPairs (first : Bool) : Nat → Read (List (Node × Node))
  | 0 => refuse
  | fuel + 1 => do
    if ← nextIf .flowMappingEnd then return []
    else
      if !first then
        if !(← nextIf .flowEntry) then refuse
      if ← nextIf .flowMappingEnd then return []
      else if ← nextIf .key then
        let k ← nodeUnless false false [.value, .flowEntry, .flowMappingEnd] fuel
        let v ←
          if ← nextIf .value then nodeUnless false false [.flowEntry, .flowMappingEnd] fuel
          else pure Node.empty
        return (k, v) :: (← flowPairs false fuel)
      else
        let k ← node false false fuel
        return (k, Node.empty) :: (← flowPairs false fuel)

end

/-- Read the directives in front of a document; `fuel` bounds their number. -/
def directives (versioned : Bool) : Nat → Read Unit
  | 0 => refuse
  | fuel + 1 => do
    match ← peek with
    | some (.version major minor) =>
      if versioned || major != 1 || (minor != 1 && minor != 2) then refuse
      else
        next
        directives true fuel
    | some (.handle name lead) =>
      if ((← get).handles.lookup name).isSome then refuse
      else
        next
        modify fun r => { r with handles := (name, lead) :: r.handles }
        directives versioned fuel
    | _ => pure ()

/-- Whether a token begins a document that is marked as one. -/
def beginsDocument : Token → Bool
  | .version _ _ => true
  | .handle _ _ => true
  | .documentStart => true
  | _ => false

/-- Read the only document. -/
def document (fuel : Nat) : Read Node := do
  match ← peek with
  | none => return Node.empty
  | some t =>
    let n ←
      if beginsDocument t then
        directives false fuel
        if !(← nextIf .documentStart) then refuse
        match ← peek with
        | none => pure Node.empty
        | some .documentEnd => pure Node.empty
        | some t => if beginsDocument t then refuse else node true false fuel
      else node true false fuel
    if ((← get).tokens.all (· == .documentEnd)) then return n else refuse

/-- Read a configuration of one document. -/
def parse? (text : List Char) : Option Node := do
  let ts ← tokens? text
  let (n, _) ← document (3 * ts.length + 3) { tokens := ts }
  return n

/-- Whether a text is one of the words for nothing. -/
def isNull (text : List Char) : Bool :=
  ["~", "null", "Null", "NULL"].contains (String.ofList text)

/-- The full text of a tag of the core schema. -/
def coreTag (name : String) : List Char :=
  ("tag:yaml.org,2002:" ++ name).toList

/-- Whether a scalar stands for nothing; fails if its tag claims so and its text does not. -/
def nothing? (text : List Char) (style : ScalarStyle) (tag : Option (List Char)) : Option Bool :=
  match style, tag with
  | .plain, none => some (text.isEmpty || isNull text)
  | .plain, some tag =>
    if tag == coreTag "null" then if isNull text then some true else none else some false
  | _, _ => some false

/-- Whether the text of a scalar may be read as a value of a type. -/
def isTyped (type : String) (style : ScalarStyle) (tag : Option (List Char)) : Bool :=
  style == .plain || (style == .literal && tag == some (coreTag type))

/-- The number of digits of a base, when a text holds nothing else. -/
def digits? (base : Nat) (isDigit : Char → Bool) (text : List Char) : Option Nat :=
  let body := match text with
    | '+' :: rest => rest
    | _ => text
  if !body.isEmpty && body.all isDigit && Text.inBase base body < Text.wordEnd then
    some (Text.inBase base body)
  else none

/-- The number of a text behind the mark of a base. -/
def marked? (base : Nat) (isDigit : Char → Bool) (text : List Char) : Option Nat :=
  if text.head? == some '+' then none else digits? base isDigit text

/-- The number that a text stands for: digits without a needless zero in front, or digits of a marked
base. -/
def count? (text : List Char) : Option Nat :=
  let body := match text with
    | '+' :: rest => rest
    | _ => text
  match body with
  | '0' :: 'x' :: rest => marked? 16 (fun c => (Text.hexDigit? c).isSome) rest
  | '0' :: 'o' :: rest => marked? 8 (fun c => '0' ≤ c && c ≤ '7') rest
  | '0' :: 'b' :: rest => marked? 2 (fun c => c == '0' || c == '1') rest
  | '+' :: _ => none
  | '0' :: _ :: _ => none
  | _ => digits? 10 Char.isDigit body

/-- The truth value that a text stands for. -/
def flag? (text : List Char) : Option Bool :=
  match String.ofList text with
  | "true" => some true
  | "True" => some true
  | "TRUE" => some true
  | "false" => some false
  | "False" => some false
  | "FALSE" => some false
  | _ => none

/-- Read a scalar that may stand for nothing. -/
def readScalar {α : Type} (read : List Char → ScalarStyle → Option (List Char) → Option α) :
    Node → Option (Option α)
  | .scalar text style tag => do
    if ← nothing? text style tag then return none
    else return some (← read text style tag)
  | _ => none

/-- The nodes of a document as options. -/
def reading : Reading Node where
  count := readScalar fun text style tag => if isTyped "int" style tag then count? text else none
  flag := readScalar fun text style tag => if isTyped "bool" style tag then flag? text else none
  text := readScalar fun text _ _ => some text

/-- The pairs of a mapping, when all its keys are scalars. -/
def named? (pairs : List (Node × Node)) : Option (List (List Char × Node)) :=
  pairs.mapM fun (k, v) =>
    match k with
    | .scalar text _ _ => some (text, v)
    | _ => none

/-- The preferences in a configuration; an empty document has none. -/
def preferences? (text : List Char) : Option Preferences :=
  match parse? text with
  | some (.mapping pairs) => (named? pairs).bind (Preferences.ofFields? reading)
  | some (.scalar [] .plain _) => some {}
  | _ => none

end Yaml
end Config
end StoryDocs
