import StoryDocs.Script.Grammar.Class

/-!
# Tags as expressions

A tag is read from the text of its tokens: names may hold hyphens, attribute strings have no escapes,
and the text between tags is not cut into tokens at all.  `element` stops at the bracket that closes
the last tag, so that the text behind it can be read in the way of the place around.
-/

namespace StoryDocs
namespace Script
namespace Grammar

/-- Read one word of a tag or attribute name, in which hyphens are allowed. -/
def tagWord : Parse Tree := do
  let t ← token
  require (isName t)
  let (name, rest) := t.here.span fun c => Text.isIdentifierPart c || c == '-'
  require !name.isEmpty
  resumeAt rest (t.start + name.length)
  finish .tagName t.start (String.ofList name) []

/-- Read a name that may have a namespace in front. -/
def tagNamespaced : Parse Tree := do
  let start ← position
  let first ← tagWord
  if ← eatMark ":" then
    let second ← tagWord
    finish .tagName start (first.name ++ ":" ++ second.name) []
  else return first

/-- Read the name of a tag: words with points between them. -/
def tagName : Parse Tree := do
  let start ← position
  let first ← tagNamespaced
  repeatFrom first fun name => do
    if ← eatMark "." then
      let next ← tagWord
      return .inl (← finish .tagName start (name.name ++ "." ++ next.name) [])
    return .inr name

/-- The text up to `quote` and the text behind it. -/
def splitQuoted (quote : Char) (s : List Char) : Option (List Char × List Char) :=
  match s.span (· != quote) with
  | (inner, _ :: rest) => some (inner, rest)
  | (_, []) => none

/-- Read an expression in braces; `none` if there is only a comment. -/
def bracedExpression (rules : Rules) : Parse (Option Tree) := do
  expectMark "\x7b"
  if ← atMark "\x7d" then return none
  let _ ← eatMark "..."
  let e ← bracketed (rules .expression)
  require (← atMark "\x7d")
  return some e

/-- Read the value of an attribute. -/
def attributeValue (rules : Rules) : Parse Tree := do
  let t ← token
  match t.here with
  | c :: s =>
    if c == '\x22' || c == '\x27' then
      match splitQuoted c s with
      | some (inner, rest) =>
        resumeAt rest (t.start + inner.length + 2)
        finish .tagText t.start (String.ofList inner) []
      | none => reject
    else if c == '\x7b' then
      match ← bracedExpression rules with
      | some e =>
        advance
        finish .tagExpression t.start "" [e]
      | none => reject
    else if c == '<' then
      let e ← rules .element
      advance
      return e
    else reject
  | [] => reject

/-- Read an attribute. -/
def tagAttribute (rules : Rules) : Parse Tree := do
  let start ← position
  if ← eatMark "\x7b" then
    expectMark "..."
    let e ← bracketed (rules .assignment)
    expectMark "\x7d"
    return ← finish .tagSpread start "" [e]
  let name ← tagNamespaced
  if ← eatMark "=" then
    let value ← attributeValue rules
    finish .tagAttribute start name.name [value]
  else finish .tagAttribute start name.name []

/-- Whether the text between tags holds a bracket that must be written as a character reference. -/
def hasLooseBracket (text : List Char) : Bool :=
  text.any fun c => c == '>' || c == '\x7d'

/-- Read children from the bracket that closes a tag on, up to the next closing tag, which becomes the
current place with its name still to come. -/
def tagChildren (rules : Rules) : Parse (List Tree) := do
  let t ← token
  repeatFrom (([] : List Tree), t.rest, t.stop) fun (done, s, n) => do
    let (text, rest) := s.span fun c => c != '<' && c != '\x7b'
    require !(hasLooseBracket text)
    let stop := n + text.length
    let done :=
      if text.isEmpty then done else .node .tagText ⟨n, stop⟩ (String.ofList text) [] :: done
    resumeAt rest stop
    if ← atMark "\x7b" then
      let start ← position
      let inner ← bracedExpression rules
      let close ← token
      return .inl
        (.node .tagExpression ⟨start, close.stop⟩ "" inner.toList :: done, close.rest, close.stop)
    require (← atMark "<")
    if isMark (← peek) "/" then
      advance
      advance
      return .inr done.reverse
    let child ← rules .element
    let close ← token
    return .inl (child :: done, close.rest, close.stop)

/-- Build a node that ends with the current token. -/
def finishHere (kind : Kind) (start : Nat) (name : String) (parts : List Tree) : Parse Tree := do
  return .node kind ⟨start, (← token).stop⟩ name parts

/-- Read a tag with its children up to the bracket that closes it. -/
def element (rules : Rules) : Parse Tree := do
  let start ← position
  expectMark "<"
  if ← atMark ">" then
    let children ← tagChildren rules
    require (← atMark ">")
    return ← finishHere .fragment start "" children
  let name ← tagName
  let types ←
    if (← typed) && (← atMark "<") then pure [← rules .typeArguments] else pure []
  let attributes ← many (atMarks ["/", ">"]) (tagAttribute rules)
  if ← eatMark "/" then
    require (← atMark ">")
    return ← finishHere .tag start name.name (types ++ attributes)
  let children ← tagChildren rules
  let closing ← tagName
  require (closing.name == name.name && (← atMark ">"))
  finishHere .tag start name.name (types ++ attributes ++ children)

end Grammar
end Script
end StoryDocs
