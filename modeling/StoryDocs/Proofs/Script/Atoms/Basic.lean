import Mathlib.Algebra.BigOperators.Group.Multiset.Basic
import StoryDocs.Script.Lexer
import StoryDocs.Text.Slice

/-!
# Atoms of a script

A script is cut into atoms: blanks, comments, tokens, and the pieces of templates and tags, which are no
tokens.  Brackets are atoms of their own, and so are the marks around a template and around the code in one.
`Nesting` runs over the atoms with a stack of the brackets that are open and collects the literals that are
closed.
-/

namespace StoryDocs
namespace Script

open Text

/-! ## Texts of atoms -/

/-- What stands behind `\u`: four digits, or digits in braces. -/
inductive CodeText : List Char → Prop
  | four {a b c d : Char} (ha : (hexDigit? a).isSome) (hb : (hexDigit? b).isSome)
      (hc : (hexDigit? c).isSome) (hd : (hexDigit? d).isSome) : CodeText [a, b, c, d]
  | braced {digits : List Char} (hdigits : ∀ d ∈ digits, (hexDigit? d).isSome) :
      CodeText ('{' :: (digits ++ ['}']))

/-- What stands behind the backslash of an escape. -/
inductive EscapeText : List Char → Prop
  | single (c : Char) : EscapeText [c]
  | lineEnd : EscapeText ['\r', '\n']
  | byte {a b : Char} (ha : (hexDigit? a).isSome) (hb : (hexDigit? b).isSome) : EscapeText ['x', a, b]
  | code {s : List Char} (hs : CodeText s) : EscapeText ('u' :: s)

/-- A word, which may hold escapes. -/
inductive WordText : List Char → Prop
  | nil : WordText []
  | char {c : Char} {s : List Char} (hc : isIdentifierPart c = true) (hs : WordText s) : WordText (c :: s)
  | escape {e s : List Char} (he : CodeText e) (hs : WordText s) : WordText ('\\' :: 'u' :: (e ++ s))

/-- What stands between the quotes of a string. -/
inductive StringText (quote : Char) : List Char → Prop
  | nil : StringText quote []
  | char {c : Char} {s : List Char} (hquote : c ≠ quote) (hslash : c ≠ '\\') (hfeed : c ≠ '\n')
      (hreturn : c ≠ '\r') (hs : StringText quote s) : StringText quote (c :: s)
  | escape {e s : List Char} (he : EscapeText e) (hs : StringText quote s) :
      StringText quote ('\\' :: (e ++ s))

/-- A run of characters of a template. -/
inductive TemplateText : List Char → Prop
  | nil : TemplateText []
  | char {c : Char} {s : List Char} (htick : c ≠ '\x60') (hslash : c ≠ '\\')
      (hdollar : c = '$' → s.head? ≠ some '{') (hs : TemplateText s) : TemplateText (c :: s)
  | escape {e s : List Char} (he : EscapeText e) (hs : TemplateText s) : TemplateText ('\\' :: (e ++ s))

/-- The characters of numbers. -/
def isNumberChar (c : Char) : Bool :=
  isAsciiAlphanumeric c || c == '_' || c == '.' || c == '+' || c == '-'

/-- The characters of marks that are no brackets, all but the slash. -/
def markChars : List Char :=
  [';', ',', '<', '>', '+', '-', '*', '%', '&', '|', '^', '!', '~', '?', ':', '=', '.', '@']

/-- A mark that is no bracket; a slash is not taken for the start of a comment. -/
inductive MarkText : List Char → List Char → Prop
  | plain {s rest : List Char} (hs : ∀ c ∈ s, c ∈ markChars) : MarkText s rest
  | slash {rest : List Char} (hslash : rest.head? ≠ some '/') (hstar : rest.head? ≠ some '*') :
      MarkText ['/'] rest
  | slashSign {rest : List Char} : MarkText ['/', '='] rest

/-! ## Atoms -/

/-- The pairs of marks that a script is nested by. -/
inductive Bracket where
  | paren
  | square
  | brace
  /-- A template between backticks. -/
  | template
  /-- The code in a template. -/
  | hole
  deriving DecidableEq, Repr

namespace Bracket

/-- The mark that opens a pair. -/
def opening : Bracket → List Char
  | paren => ['(']
  | square => ['[']
  | brace => ['{']
  | template => ['\x60']
  | hole => ['$', '{']

/-- The mark that closes a pair. -/
def closing : Bracket → List Char
  | paren => [')']
  | square => [']']
  | brace => ['\x7d']
  | template => ['\x60']
  | hole => ['\x7d']

end Bracket

/-- What an atom is. -/
inductive AtomKind where
  | blank
  | lineComment
  | blockComment
  /-- The first line of a script that names an interpreter. -/
  | interpreter
  | word
  | number
  | mark
  | string
  | regex
  | templateText
  | tagName
  | tagText
  | tagString
  | opening (b : Bracket)
  | closing (b : Bracket)
  deriving DecidableEq, Repr

/-- A part of a script. -/
structure Atom where
  kind : AtomKind
  text : List Char
  deriving DecidableEq, Repr

/-- Whether a text is an atom of its kind in front of `rest`. -/
def Atom.Fits (a : Atom) (rest : List Char) : Prop :=
  match a.kind with
  | .blank => ∃ c, a.text = [c] ∧ (isLineBreak c || isBlank c || c.toNat == 0xFEFF) = true
  | .lineComment => ∃ s, a.text = '/' :: '/' :: s ∧ (∀ c ∈ s, isLineBreak c = false) ∧
      ∀ c ∈ rest.head?, isLineBreak c = true
  | .blockComment => ∃ s, a.text = '/' :: '*' :: (s ++ ['*', '/']) ∧
      find? ['*', '/'] (s ++ ['*', '/']) = some s.length
  | .interpreter => ∃ s, a.text = '#' :: '!' :: s ∧ ∀ c ∈ s, isLineBreak c = false
  | .word => ∃ w, WordText w ∧ (a.text = w ∨ a.text = '#' :: w)
  | .number => ∀ c ∈ a.text, isNumberChar c = true
  | .mark => MarkText a.text rest
  | .string => ∃ quote body, (quote = '\x22' ∨ quote = '\x27') ∧ StringText quote body ∧
      a.text = quote :: (body ++ [quote])
  | .regex => ∃ body flags, a.text = '/' :: (body ++ '/' :: flags) ∧ WordText flags
  | .templateText => TemplateText a.text
  | .tagName => ∀ c ∈ a.text, (isIdentifierPart c || c == '-') = true
  | .tagText => ∀ c ∈ a.text, c ∉ ['<', '>', '{', '\x7d']
  | .tagString => ∃ quote inner, (quote = '\x22' ∨ quote = '\x27') ∧ quote ∉ inner ∧
      a.text = quote :: (inner ++ [quote])
  | .opening b => a.text = b.opening
  | .closing b => a.text = b.closing

/-- A text is cut into atoms, up to a rest. -/
inductive Cuts : List Char → List Atom → List Char → Prop
  | nil {s : List Char} : Cuts s [] s
  | cons {a : Atom} {as : List Atom} {s rest : List Char} (ha : a.Fits s) (has : Cuts s as rest) :
      Cuts (a.text ++ s) (a :: as) rest

namespace Cuts

variable {as bs : List Atom} {a : Atom} {s t rest : List Char}

theorem append (h : Cuts s as t) (h' : Cuts t bs rest) : Cuts s (as ++ bs) rest := by
  induction h with
  | nil => exact h'
  | cons ha _ ih => exact .cons ha (ih h')

theorem one (h : a.Fits rest) : Cuts (a.text ++ rest) [a] rest :=
  .cons h .nil

theorem text_eq (h : Cuts s as rest) : s = as.flatMap Atom.text ++ rest := by
  induction h with
  | nil => rfl
  | cons _ _ ih => rw [List.flatMap_cons, List.append_assoc, ← ih]

end Cuts

/-! ## Nesting -/

/-- A literal in its place. -/
inductive Literal where
  | string (span : Span)
  | template (span : Span)
  deriving DecidableEq, Repr

/-- How far a script is read: the brackets that are open with the places where they stand, the innermost
first, and the literals that are closed. -/
structure Nesting where
  offset : Nat
  stack : List (Bracket × Nat)
  literals : Multiset Literal

namespace Nesting

/-- Nothing is read. -/
def start : Nesting :=
  ⟨0, [], 0⟩

/-- Whether characters of a template are next. -/
def InTemplate : List (Bracket × Nat) → Prop
  | (.template, _) :: _ => True
  | _ => False

instance : DecidablePred InTemplate
  | [] => isFalse id
  | (.template, _) :: _ => isTrue trivial
  | (.paren, _) :: _ => isFalse id
  | (.square, _) :: _ => isFalse id
  | (.brace, _) :: _ => isFalse id
  | (.hole, _) :: _ => isFalse id

/-- The literal that ends with a bracket. -/
def closed (b : Bracket) (span : Span) : Multiset Literal :=
  if b = .template then {.template span} else 0

/-- Read an atom, if it can stand there. -/
def step (m : Nesting) (a : Atom) : Option Nesting :=
  let stop := m.offset + a.text.length
  match a.kind with
  | .opening b =>
    if InTemplate m.stack ↔ b = .hole then some ⟨stop, (b, m.offset) :: m.stack, m.literals⟩ else none
  | .closing b =>
    match m.stack with
    | (b', n) :: stack => if b' = b then some ⟨stop, stack, m.literals + closed b ⟨n, stop⟩⟩ else none
    | [] => none
  | .templateText => if InTemplate m.stack then some { m with offset := stop } else none
  | .string =>
    if InTemplate m.stack then none
    else some { m with offset := stop, literals := m.literals + {.string ⟨m.offset, stop⟩} }
  | _ => if InTemplate m.stack then none else some { m with offset := stop }

/-- Read atoms one after the other. -/
def run (m : Nesting) : List Atom → Option Nesting
  | [] => some m
  | a :: as => (m.step a).bind fun m => m.run as

theorem run_append (m : Nesting) (as bs : List Atom) :
    m.run (as ++ bs) = (m.run as).bind fun m => m.run bs := by
  induction as generalizing m with
  | nil => rfl
  | cons a as ih =>
      rw [List.cons_append, run, run, Option.bind_assoc]
      congr 1
      funext m
      exact ih m

end Nesting

end Script
end StoryDocs
