import StoryDocs.Proofs.Markup.Measures
import StoryDocs.Proofs.Markup.Prose
import StoryDocs.Proofs.Script.Atoms.Grouped
import StoryDocs.Proofs.Script.Atoms.Lexing

/-!
# Scanners over atoms

A scanner of embedded code knows strings, templates, comments and brackets, and takes every other atom of a script
character by character.  `Atom.Plain` says which atoms it takes for what they are, and a scanner passes over plain
atoms in which every bracket is closed without a change of what it looks for.
-/

namespace StoryDocs
namespace Script

open Text Markup

/-! ## Plain atoms -/

/-- The last character of a text, or the one before it. -/
def lastChar (before : Char) (s : List Char) : Char :=
  s.getLast?.getD before

/-- The text of some atoms. -/
def textOf (as : List Atom) : List Char :=
  as.flatMap Atom.text

/-- Whether a line ends, or the text. -/
def LineEnds (rest : List Char) : Prop :=
  rest = [] ∨ (∃ s, rest = '\n' :: s) ∨ ∃ s, rest = '\r' :: '\n' :: s

/-- Whether a scanner takes each character of a text for itself: no bracket that it counts and no backtick, a quote
only behind a letter or digit, and no start of a comment. -/
def Inert (wide : Bool) : Char → List Char → List Char → Prop
  | _, [], _ => True
  | before, c :: s, rest =>
    c ∉ openings wide ∧ c ∉ closings wide ∧ c ≠ '\x60' ∧
      ((c = '\x22' ∨ c = '\x27') → isAsciiAlphanumeric before = true) ∧
      (c = '/' → (s ++ rest).head? ≠ some '*' ∧ ((s ++ rest).head? = some '/' → before = ':')) ∧
      Inert wide c s rest

/-- Whether a scanner takes an atom for what it is.  Comments and strings have to stand where it looks for some and
have to end where it ends them, or they have to be inert, as what it does not know has to be; characters of a template
may not stop inside the mark of a hole. -/
def Atom.Plain (wide : Bool) (a : Atom) (before : Char) (rest : List Char) : Prop :=
  match a.kind with
  | .lineComment => before ≠ ':' ∧ LineEnds rest ∨ Inert wide before a.text rest
  | .string => isAsciiAlphanumeric before = false ∧ ¬['\r', '\n'] <:+: a.text ∨ Inert wide before a.text rest
  | .tagString => isAsciiAlphanumeric before = false ∧ '\n' ∉ a.text ∧ a.text.dropLast.getLast? ≠ some '\\' ∨
      Inert wide before a.text rest
  | .regex => Inert wide before a.text rest
  | .tagText => Inert wide before a.text rest
  | .interpreter => Inert wide before a.text rest
  | .templateText => a.text.getLast? = some '$' → rest.head? ≠ some '\x7b'
  | _ => True

/-- Whether all atoms fit in their places. -/
def AllFit : List Atom → List Char → Prop
  | [], _ => True
  | a :: as, rest => a.Fits (textOf as ++ rest) ∧ AllFit as rest

/-- Whether all atoms are plain in their places. -/
def AllPlain (wide : Bool) : Char → List Atom → List Char → Prop
  | _, [], _ => True
  | before, a :: as, rest =>
    a.Plain wide before (textOf as ++ rest) ∧ AllPlain wide (lastChar before a.text) as rest

section Texts

variable {wide : Bool} {before c : Char} {s t rest tail : List Char} {as bs : List Atom} {a : Atom}

@[simp] theorem lastChar_nil (before : Char) : lastChar before [] = before := rfl

theorem lastChar_append (before : Char) (s t : List Char) :
    lastChar before (s ++ t) = lastChar (lastChar before s) t := by
  rw [lastChar, lastChar, lastChar, List.getLast?_append]
  cases t.getLast? with
  | none => rfl
  | some c => rfl

theorem lastChar_cons (before c : Char) (s : List Char) : lastChar before (c :: s) = lastChar c s :=
  lastChar_append before [c] s

@[simp] theorem textOf_nil : textOf [] = [] := rfl

@[simp] theorem textOf_cons (a : Atom) (as : List Atom) : textOf (a :: as) = a.text ++ textOf as := rfl

@[simp] theorem textOf_append (as bs : List Atom) : textOf (as ++ bs) = textOf as ++ textOf bs :=
  List.flatMap_append

/-- The atoms of a text fit where they stand. -/
theorem Cuts.allFit (h : Cuts s as rest) : AllFit as rest := by
  induction h with
  | nil => exact trivial
  | @cons a as s rest ha has ih =>
      have htext : s = textOf as ++ rest := has.text_eq
      rw [htext] at ha
      exact ⟨ha, ih⟩

theorem AllFit.cuts (h : AllFit as rest) : Cuts (textOf as ++ rest) as rest := by
  induction as with
  | nil => exact .nil
  | cons a as ih =>
      rw [textOf_cons, List.append_assoc]
      exact .cons h.1 (ih h.2)

theorem AllFit.unappend (h : AllFit (as ++ bs) rest) : AllFit as (textOf bs ++ rest) ∧ AllFit bs rest := by
  induction as with
  | nil => exact ⟨trivial, h⟩
  | cons a as ih =>
      obtain ⟨ha, has⟩ := h
      obtain ⟨hfront, hback⟩ := ih has
      have ha : a.Fits (textOf (as ++ bs) ++ rest) := ha
      rw [textOf_append, List.append_assoc] at ha
      exact ⟨⟨ha, hfront⟩, hback⟩

theorem AllPlain.unappend (h : AllPlain wide before (as ++ bs) rest) :
    AllPlain wide before as (textOf bs ++ rest) ∧ AllPlain wide (lastChar before (textOf as)) bs rest := by
  induction as generalizing before with
  | nil => exact ⟨trivial, h⟩
  | cons a as ih =>
      obtain ⟨ha, has⟩ := h
      obtain ⟨hfront, hback⟩ := ih has
      have ha : a.Plain wide before (textOf (as ++ bs) ++ rest) := ha
      rw [textOf_append, List.append_assoc] at ha
      rw [textOf_cons, lastChar_append]
      exact ⟨⟨ha, hfront⟩, hback⟩

/-! ### A line feed behind -/

theorem LineEnds.behind (h : LineEnds rest) (htail : tail.head? = some '\n') : LineEnds (rest ++ tail) := by
  rcases h with rfl | ⟨s, rfl⟩ | ⟨s, rfl⟩
  · exact .inr (.inl (List.head?_eq_some_iff.mp htail))
  · exact .inr (.inl ⟨s ++ tail, rfl⟩)
  · exact .inr (.inr ⟨s ++ tail, rfl⟩)

theorem head?_append_feed (htail : tail.head? = some '\n') (hc : c ≠ '\n') :
    (s ++ tail).head? = some c ↔ s.head? = some c := by
  cases s with
  | nil => simp [htail, hc.symm]
  | cons d s => rfl

theorem Inert.behind (h : Inert wide before s rest) (htail : tail.head? = some '\n') :
    Inert wide before s (rest ++ tail) := by
  induction s generalizing before with
  | nil => exact trivial
  | cons c s ih =>
      obtain ⟨hopen, hclose, htick, hquote, hslash, hs⟩ := h
      refine ⟨hopen, hclose, htick, hquote, fun hc => ?_, ih hs⟩
      rw [← List.append_assoc, Ne, head?_append_feed htail (by decide), head?_append_feed htail (by decide)]
      exact hslash hc

theorem Atom.Fits.behind (h : a.Fits rest) (htail : tail.head? = some '\n') : a.Fits (rest ++ tail) := by
  obtain ⟨kind, text⟩ := a
  cases kind with
  | lineComment =>
      obtain ⟨s, htext, hs, hrest⟩ := h
      refine ⟨s, htext, hs, fun c hc => ?_⟩
      cases rest with
      | nil =>
          rw [List.nil_append, htail] at hc
          rw [← Option.some.inj hc]
          rfl
      | cons d rest => exact hrest c hc
  | mark =>
      cases h with
      | plain hs => exact .plain hs
      | slash hslash hstar =>
          refine .slash ?_ ?_
          · rwa [Ne, head?_append_feed htail (by decide)]
          · rwa [Ne, head?_append_feed htail (by decide)]
      | slashSign => exact .slashSign
  | _ => exact h

theorem Atom.Plain.behind (h : a.Plain wide before rest) (htail : tail.head? = some '\n') :
    a.Plain wide before (rest ++ tail) := by
  obtain ⟨kind, text⟩ := a
  cases kind with
  | lineComment => exact h.imp (fun h => ⟨h.1, h.2.behind htail⟩) fun h => h.behind htail
  | string => exact h.imp_right fun h => h.behind htail
  | tagString => exact h.imp_right fun h => h.behind htail
  | regex => exact Inert.behind h htail
  | tagText => exact Inert.behind h htail
  | interpreter => exact Inert.behind h htail
  | templateText =>
      intro hlast
      rw [Ne, head?_append_feed htail (by decide)]
      exact h hlast
  | _ => exact h

theorem Cuts.behind (h : Cuts s as rest) (htail : tail.head? = some '\n') : Cuts (s ++ tail) as (rest ++ tail) := by
  induction h with
  | nil => exact .nil
  | cons ha _ ih =>
      rw [List.append_assoc]
      exact .cons (ha.behind htail) ih

theorem AllPlain.behind (h : AllPlain wide before as rest) (htail : tail.head? = some '\n') :
    AllPlain wide before as (rest ++ tail) := by
  induction as generalizing before with
  | nil => exact trivial
  | cons a as ih =>
      refine ⟨?_, ih h.2⟩
      rw [← List.append_assoc]
      exact h.1.behind htail

end Texts

/-! ## Passing over a text -/

section Passing

variable {S : CodeScanner} {wide : Bool} {before c quote : Char} {s t u v rest tail : List Char} {d d' d'' : Nat}

/-- A scanner finds its end behind a text as if it started there, with other brackets open. -/
def Passes (S : CodeScanner) (d : Nat) (before : Char) (u tail : List Char) (d' : Nat) : Prop :=
  S.extent d before (u ++ tail) = (S.extent d' (lastChar before u) tail).map (· + u.length)

/-- Whether no line that starts in a text is blank, if the scanner looks for blank lines. -/
def Unbroken (S : CodeScanner) (u tail : List Char) : Prop :=
  S.wide = true → ∀ front s, u = front ++ '\n' :: s → lineIsBlank (s ++ tail) = false

theorem Unbroken.left (h : Unbroken S (u ++ v) tail) : Unbroken S u (v ++ tail) := by
  rintro hwide front s rfl
  rw [← List.append_assoc]
  exact h hwide front (s ++ v) (by rw [List.append_assoc, List.cons_append])

theorem Unbroken.right (h : Unbroken S (u ++ v) tail) : Unbroken S v tail := by
  rintro hwide front s rfl
  exact h hwide (u ++ front) s (List.append_assoc _ _ _).symm

namespace Passes

theorem nil : Passes S d before [] tail d := by
  rw [Passes, List.nil_append, lastChar_nil]
  cases S.extent d before tail with
  | none => rfl
  | some n => rfl

theorem append (hu : Passes S d before u (v ++ tail) d') (hv : Passes S d' (lastChar before u) v tail d'') :
    Passes S d before (u ++ v) tail d'' := by
  rw [Passes] at hu hv ⊢
  rw [List.append_assoc, hu, hv, Option.map_map, lastChar_append, List.length_append]
  congr 1
  funext n
  simp only [Function.comp]
  omega

/-- One character and what comes behind it. -/
theorem cons (hc : S.extent d before (c :: (s ++ tail)) = (S.extent d' c (s ++ tail)).map (· + 1))
    (hs : Passes S d' c s tail d'') : Passes S d before (c :: s) tail d'' :=
  append (u := [c]) (v := s) hc hs

theorem literal (hu : u ≠ []) (h : literalExtent before (u ++ tail) = some u.length) : Passes S d before u tail d := by
  have hlast : lastOf u.length (u ++ tail) = lastChar before u := by
    rw [lastOf, List.take_left, lastChar]
    obtain ⟨c, hc⟩ := Option.ne_none_iff_exists'.mp (mt List.getLast?_eq_none_iff.mp hu)
    rw [hc]
    rfl
  rw [Passes, S.literal h, hlast, List.drop_left]

end Passes

/-! ### Inert texts -/

/-- The characters that can mean something to a scanner outside literals. -/
def loudChars : List Char :=
  ['\x22', '\x27', '\x60', '/', '\x7b', '\x7d', '[', ']', '(', ')']

/-- Whether a character means nothing to a scanner outside literals. -/
def isQuiet (c : Char) : Bool :=
  !loudChars.contains c

theorem ne_of_isQuiet {e : Char} (hc : isQuiet c = true) (he : isQuiet e = false) : c ≠ e := by
  rintro rfl
  rw [hc] at he
  cases he

/-- A class of characters is quiet if no loud one is in it. -/
theorem isQuiet_of {p : Char → Bool} (hp : ∀ e ∈ loudChars, p e = false) (hc : p c = true) : isQuiet c = true := by
  rw [isQuiet, Bool.not_eq_true', Bool.eq_false_iff]
  intro hloud
  rw [hp c (by simpa using hloud)] at hc
  cases hc

theorem notMem_openings (hc : isQuiet c = true) (wide : Bool) : c ∉ openings wide := by
  have hall : ∀ wide, ∀ e ∈ openings wide, isQuiet e = false := by decide
  intro hmem
  exact ne_of_isQuiet hc (hall wide c hmem) rfl

theorem notMem_closings (hc : isQuiet c = true) (wide : Bool) : c ∉ closings wide := by
  have hall : ∀ wide, ∀ e ∈ closings wide, isQuiet e = false := by decide
  intro hmem
  exact ne_of_isQuiet hc (hall wide c hmem) rfl

theorem inert_of_quiet (hs : ∀ c ∈ s, isQuiet c = true) (wide : Bool) (before : Char) (rest : List Char) :
    Inert wide before s rest := by
  induction s generalizing before with
  | nil => exact trivial
  | cons c s ih =>
      obtain ⟨hc, hrest⟩ := List.forall_mem_cons.mp hs
      refine ⟨notMem_openings hc wide, notMem_closings hc wide, ne_of_isQuiet hc (by decide), fun hquote => ?_,
        fun hslash => absurd hslash (ne_of_isQuiet hc (by decide)), ih hrest c⟩
      rcases hquote with rfl | rfl
      · exact absurd hc (by decide)
      · exact absurd hc (by decide)

/-- A slash that starts no comment. -/
theorem inert_slash (hstar : (s ++ rest).head? ≠ some '*') (hslash : (s ++ rest).head? ≠ some '/')
    (hs : Inert wide '/' s rest) : Inert wide before ('/' :: s) rest := by
  have hno : ∀ wide, '/' ∉ openings wide ∧ '/' ∉ closings wide := by decide
  refine ⟨(hno wide).1, (hno wide).2, by decide, fun hquote => ?_, fun _ => ⟨hstar, fun h => absurd h hslash⟩, hs⟩
  rcases hquote with hquote | hquote
  · cases hquote
  · cases hquote

theorem Inert.narrow (h : Inert wide before s rest) (hS : S.wide = true → wide = true) : Inert S.wide before s rest := by
  have hbraces : ∀ {e}, (e ∈ openings false → e ∈ openings true) ∧ (e ∈ closings false → e ∈ closings true) := by
    intro e
    exact ⟨fun h => List.mem_cons.mpr (.inl (List.mem_singleton.mp h)),
      fun h => List.mem_cons.mpr (.inl (List.mem_singleton.mp h))⟩
  induction s generalizing before with
  | nil => exact trivial
  | cons c s ih =>
      obtain ⟨hopen, hclose, htick, hquote, hslash, hs⟩ := h
      refine ⟨?_, ?_, htick, hquote, hslash, ih hs⟩
      · cases hwide : S.wide with
        | true => rwa [hS hwide] at hopen
        | false =>
            cases wide with
            | true => exact mt hbraces.1 hopen
            | false => exact hopen
      · cases hwide : S.wide with
        | true => rwa [hS hwide] at hclose
        | false =>
            cases wide with
            | true => exact mt hbraces.2 hclose
            | false => exact hclose

/-- No literal starts at an inert character. -/
theorem Inert.literalExtent_eq (h : Inert wide before (c :: s) rest) : literalExtent before (c :: (s ++ rest)) = none := by
  obtain ⟨_, _, htick, hquote, hslash, _⟩ := h
  rw [literalExtent]
  by_cases hc : c = '/'
  · obtain ⟨hstar, hdouble⟩ := hslash hc
    rw [hc, Bytes.literalLength?_slash]
    split
    · rename_i hhead
      rw [hdouble (by simpa using hhead)]
      rfl
    · rw [if_neg (by simpa using hstar)]
  · rw [Bytes.literalLength?_of_ne_slash hc]
    split
    · rename_i hmark
      rw [if_pos (hquote (by simpa using hmark))]
    · rw [if_neg (by simpa using htick)]

theorem Inert.passes (h : Inert S.wide before s tail) (hline : Unbroken S s tail) : Passes S d before s tail d := by
  induction s generalizing before with
  | nil => exact .nil
  | cons c s ih =>
      refine .cons (S.other d h.literalExtent_eq h.1 h.2.1 fun hwide hc => ?_) (ih h.2.2.2.2.2 (hline.right (u := [c])))
      exact hline hwide [] s (by rw [hc]; rfl)

theorem passes_of_quiet (hs : ∀ c ∈ s, isQuiet c = true) (hline : Unbroken S s tail) : Passes S d before s tail d :=
  (inert_of_quiet hs S.wide before tail).passes hline

/-! ### Words -/

theorem isQuiet_of_hexDigit (h : (hexDigit? c).isSome = true) : isQuiet c = true :=
  isQuiet_of (p := isNumberChar) (by decide) (isNumberChar_of_hexDigit? h)

theorem CodeText.passes {e : List Char} (he : CodeText e) (hline : Unbroken S e tail) : Passes S d before e tail d := by
  cases he with
  | four ha hb hc hd =>
      refine passes_of_quiet ?_ hline
      simp [isQuiet_of_hexDigit ha, isQuiet_of_hexDigit hb, isQuiet_of_hexDigit hc, isQuiet_of_hexDigit hd]
  | @braced digits hdigits =>
      have hopen : ∀ wide, '{' ∈ openings wide := by decide
      have hclose : ∀ wide, '}' ∈ closings wide := by decide
      have hinner : Passes S (d + 1) '{' digits (['}'] ++ tail) (d + 1) :=
        passes_of_quiet (fun c hc => isQuiet_of_hexDigit (hdigits c hc)) (hline.right (u := ['{'])).left
      refine .cons (S.opening d before _ (hopen S.wide)) (hinner.append ?_)
      exact .cons (S.closing d _ _ (hclose S.wide)) .nil

theorem WordText.passes {w : List Char} (hw : WordText w) (hline : Unbroken S w tail) : Passes S d before w tail d := by
  induction hw generalizing before with
  | nil => exact .nil
  | @char c s hc _ ih =>
      have hquiet : ∀ e ∈ [c], isQuiet e = true := by
        simpa using isQuiet_of (p := isIdentifierPart) (by decide) hc
      exact Passes.append (u := [c]) (passes_of_quiet hquiet hline.left) (ih (hline.right (u := [c])))
  | @escape e s he _ ih =>
      have hrest := hline.right (u := ['\\', 'u'])
      refine Passes.append (u := ['\\', 'u']) (passes_of_quiet (by decide) hline.left) ?_
      exact (he.passes hrest.left).append (ih hrest.right)

/-! ### Strings and templates -/

/-- Behind its first character an escape has digits and braces, or ends a line. -/
theorem EscapeText.eq_cons {e : List Char} (he : EscapeText e) :
    ∃ c t, e = c :: t ∧ (e = ['\r', '\n'] ∨ ∀ x ∈ t, isNumberChar x = true ∨ x = '\x7b' ∨ x = '\x7d') := by
  have hhex : ∀ {x : Char}, (hexDigit? x).isSome = true → isNumberChar x = true := isNumberChar_of_hexDigit?
  cases he with
  | single c => exact ⟨c, [], rfl, .inr (by simp)⟩
  | lineEnd => exact ⟨'\r', ['\n'], rfl, .inl rfl⟩
  | @byte a b ha hb => exact ⟨'x', [a, b], rfl, .inr (by simp [hhex ha, hhex hb])⟩
  | code hs =>
      refine ⟨'u', _, rfl, .inr ?_⟩
      cases hs with
      | four ha hb hc hd => simp [hhex ha, hhex hb, hhex hc, hhex hd]
      | braced hdigits =>
          intro x hx
          rcases List.mem_cons.mp hx with rfl | hx
          · exact .inr (.inl rfl)
          rcases List.mem_append.mp hx with hx | hx
          · exact .inl (hhex (hdigits x hx))
          · exact .inr (.inr (List.mem_singleton.mp hx))

/-- No character but the first of an escape is one of these. -/
theorem ne_of_escape {x e : Char} (hx : isNumberChar x = true ∨ x = '\x7b' ∨ x = '\x7d')
    (he : (isNumberChar e || e == '\x7b' || e == '\x7d') = false) : x ≠ e := by
  rintro rfl
  simp only [Bool.or_eq_false_iff, beq_eq_false_iff_ne] at he
  rcases hx with hx | rfl | rfl
  · rw [he.1.1] at hx
    cases hx
  · exact he.1.2 rfl
  · exact he.2 rfl

theorem stringLength?_over (hu : ∀ c ∈ u, c ≠ '\\' ∧ c ≠ '\n' ∧ c ≠ quote) (v : List Char) :
    stringLength? quote (u ++ v) = (stringLength? quote v).map (· + u.length) := by
  induction u with
  | nil =>
      rw [List.nil_append]
      cases stringLength? quote v with
      | none => rfl
      | some n => rfl
  | cons c u ih =>
      obtain ⟨⟨hslash, hfeed, hquote⟩, hrest⟩ := List.forall_mem_cons.mp hu
      rw [List.cons_append, Bytes.stringLength?_of_ne hslash, beq_false_of_ne hfeed, beq_false_of_ne hquote, ih hrest,
        List.length_cons]
      cases stringLength? quote v with
      | none => rfl
      | some n => rfl

/-- A string of a script is one to a scanner, unless it goes on in a new line behind a carriage return. -/
theorem StringText.stringLength?_eq {body : List Char} (hbody : StringText quote body)
    (hquote : quote = '\x22' ∨ quote = '\x27') (hreturn : ¬['\r', '\n'] <:+: body) (rest : List Char) :
    stringLength? quote (body ++ quote :: rest) = some (body.length + 1) := by
  induction hbody with
  | nil =>
      rcases hquote with rfl | rfl
      · rfl
      · rfl
  | @char c s hc hslash hfeed _ _ ih =>
      have hs : ¬['\r', '\n'] <:+: s := fun h => hreturn (h.trans (List.suffix_cons c s).isInfix)
      rw [List.cons_append, Bytes.stringLength?_of_ne hslash, beq_false_of_ne hfeed, beq_false_of_ne hc, ih hs]
      rfl
  | @escape e s he _ ih =>
      have hsuffix : s <:+ '\\' :: (e ++ s) := (List.suffix_append e s).trans (List.suffix_cons _ _)
      have hs : ¬['\r', '\n'] <:+: s := fun h => hreturn (h.trans hsuffix.isInfix)
      obtain ⟨c, t, rfl, ht⟩ := he.eq_cons
      rcases ht with hend | ht
      · refine absurd ⟨['\\'], s, ?_⟩ hreturn
        rw [hend]
        rfl
      have hover : ∀ x ∈ t, x ≠ '\\' ∧ x ≠ '\n' ∧ x ≠ quote := by
        intro x hx
        refine ⟨ne_of_escape (ht x hx) (by decide), ne_of_escape (ht x hx) (by decide), ?_⟩
        rcases hquote with rfl | rfl
        · exact ne_of_escape (ht x hx) (by decide)
        · exact ne_of_escape (ht x hx) (by decide)
      rw [List.cons_append, Bytes.stringLength?_escape, List.cons_append, List.cons_append, List.tail_cons,
        List.append_assoc, stringLength?_over hover, ih hs]
      simp only [Option.map_some, List.length_cons, List.length_append]
      congr 1
      omega

/-- A quoted value of a tag is a string to a scanner if it is on one line and no backslash stands before the quote. -/
theorem stringLength?_tag (hquote : quote = '\x22' ∨ quote = '\x27') :
    (s : List Char) → quote ∉ s → '\n' ∉ s → s.getLast? ≠ some '\\' → (rest : List Char) →
    stringLength? quote (s ++ quote :: rest) = some (s.length + 1)
  | [], _, _, _, _ => by
      rcases hquote with rfl | rfl
      · rfl
      · rfl
  | c :: s, hs, hfeed, hslash, rest => by
      rw [List.mem_cons, not_or] at hs hfeed
      have hlast : ∀ {t}, t <:+ c :: s → t.getLast? ≠ some '\\' := by
        rintro t ⟨front, hfront⟩ ht
        rw [← hfront, List.getLast?_append, ht] at hslash
        exact hslash rfl
      by_cases hc : c = '\\'
      · subst hc
        cases s with
        | nil => exact absurd rfl hslash
        | cons d s =>
            rw [List.mem_cons, not_or] at hs hfeed
            rw [List.cons_append, Bytes.stringLength?_escape, List.cons_append, List.tail_cons,
              stringLength?_tag hquote s hs.2.2 hfeed.2.2 (hlast ⟨['\\', d], rfl⟩) rest]
            rfl
      · rw [List.cons_append, Bytes.stringLength?_of_ne hc, beq_false_of_ne (Ne.symm hfeed.1),
          beq_false_of_ne (Ne.symm hs.1), stringLength?_tag hquote s hs.2 hfeed.2 (hlast (List.suffix_cons c s)) rest]
        rfl

theorem templateExtent_over (hu : ∀ c ∈ u, c ≠ '\\' ∧ c ≠ '\x60' ∧ c ≠ '$') (v : List Char) :
    templateExtent (u ++ v) = (templateExtent v).map (· + u.length) := by
  induction u with
  | nil =>
      rw [List.nil_append]
      cases templateExtent v with
      | none => rfl
      | some n => rfl
  | cons c u ih =>
      obtain ⟨⟨hslash, htick, hdollar⟩, hrest⟩ := List.forall_mem_cons.mp hu
      rw [List.cons_append, templateExtent_of_ne hslash htick (fun h => hdollar h.1), ih hrest, List.length_cons]
      cases templateExtent v with
      | none => rfl
      | some n => rfl

/-- The characters of a template are passed, unless they stop inside the mark of a hole. -/
theorem TemplateText.templateExtent_eq (hu : TemplateText u) (hdollar : u.getLast? = some '$' → rest.head? ≠ some '\x7b') :
    templateExtent (u ++ rest) = (templateExtent rest).map (· + u.length) := by
  have hmap : ∀ (o : Option Nat) (m k : Nat), (o.map (· + m)).map (· + k) = o.map (· + (m + k)) := by
    intro o m k
    rw [Option.map_map]
    congr 1
    funext n
    exact Nat.add_assoc n m k
  induction hu with
  | nil => exact (templateExtent_over (u := []) (by simp) rest)
  | @char c s htick hslash hhole _ ih =>
      have hs : s.getLast? = some '$' → rest.head? ≠ some '\x7b' := by
        intro hlast
        refine hdollar ?_
        rw [← List.singleton_append, List.getLast?_append, hlast]
        rfl
      -- No hole opens here, also not with the first character behind the template text.
      have hno : ¬(c = '$' ∧ (s ++ rest).head? = some '\x7b') := by
        rintro ⟨rfl, hhead⟩
        cases s with
        | nil => exact hdollar rfl hhead
        | cons d s => exact hhole rfl hhead
      rw [List.cons_append, templateExtent_of_ne hslash htick hno, ih hs, hmap, List.length_cons]
  | @escape e s he _ ih =>
      have hs : s.getLast? = some '$' → rest.head? ≠ some '\x7b' := by
        intro hlast
        refine hdollar ?_
        rw [← List.cons_append, List.getLast?_append, hlast]
        rfl
      obtain ⟨c, t, rfl, ht⟩ := he.eq_cons
      have hover : ∀ x ∈ t, x ≠ '\\' ∧ x ≠ '\x60' ∧ x ≠ '$' := by
        intro x hx
        rcases ht with hend | ht
        · obtain ⟨_, rfl⟩ := List.cons.inj hend
          obtain rfl := List.mem_singleton.mp hx
          decide
        · exact ⟨ne_of_escape (ht x hx) (by decide), ne_of_escape (ht x hx) (by decide),
            ne_of_escape (ht x hx) (by decide)⟩
      rw [List.cons_append, List.cons_append, List.cons_append, templateExtent_escape, List.append_assoc,
        templateExtent_over hover, ih hs, hmap, hmap]
      have hlength : s.length + (t.length + 2) = ('\\' :: c :: (t ++ s)).length := by
        rw [List.length_cons, List.length_cons, List.length_append]
        omega
      rw [hlength]

/-! ### Atoms -/

/-- A comment up to the end of its line.  A carriage return in front of the line feed belongs to it, as a scanner
sees it, and is passed either way. -/
theorem passes_lineComment (htext : u = '/' :: '/' :: s) (hs : '\n' ∉ u) (hbefore : before ≠ ':') (hrest : LineEnds rest)
    (d : Nat) : Passes S d before u rest d := by
  have hliteral : ∀ v, literalExtent before (u ++ v) = some (restOfLine (u ++ v)).length := by
    intro v
    rw [htext, literalExtent, List.cons_append, Bytes.literalLength?_slash, List.cons_append, List.head?_cons,
      beq_self_eq_true, if_pos rfl, beq_false_of_ne hbefore]
    rfl
  have hne : u ≠ [] := by
    rw [htext]
    exact List.cons_ne_nil _ _
  rcases hrest with rfl | ⟨v, rfl⟩ | ⟨v, rfl⟩
  · refine .literal hne ?_
    rw [hliteral, List.append_nil, Bytes.restOfLine_of_not_mem hs]
  · refine .literal hne ?_
    rw [hliteral, restOfLine_append_feed, Bytes.restOfLine_of_not_mem hs]
  · have hreturn : '\n' ∉ u ++ ['\r'] := by
      rw [List.mem_append, not_or]
      exact ⟨hs, by decide⟩
    have hwhole : Passes S d before (u ++ ['\r']) ('\n' :: v) d := by
      refine .literal (List.append_ne_nil_of_left_ne_nil hne _) ?_
      rw [List.append_assoc, List.singleton_append, hliteral, ← List.singleton_append, ← List.append_assoc,
        restOfLine_append_feed, Bytes.restOfLine_of_not_mem hreturn]
    have hlast : Passes S d (lastChar before u) ['\r'] ('\n' :: v) d :=
      passes_of_quiet (by decide) fun _ front s hsplit => by
        cases front with
        | nil => cases (List.cons.inj hsplit).1
        | cons c front => cases front <;> cases (List.cons.inj hsplit).2
    rw [Passes] at hwhole hlast ⊢
    rw [List.append_assoc, lastChar_append, List.length_append] at hwhole
    rw [List.singleton_append] at hwhole hlast
    rw [hwhole, hlast, Option.map_map]
    congr 1
    funext n
    simp only [Function.comp, List.length_singleton]
    omega

theorem passes_blockComment (hend : find? ['*', '/'] (s ++ ['*', '/']) = some s.length) (rest : List Char) (d : Nat) :
    Passes S d before ('/' :: '*' :: (s ++ ['*', '/'])) rest d := by
  have hfind : find? ['*', '/'] (s ++ ['*', '/'] ++ rest) = some s.length := by
    have hinside := find?_inside (u := s ++ ['*', '/']) (s := []) (t := rest) (by rwa [List.append_nil]) (by simp) (by simp)
    exact hinside
  refine .literal (List.cons_ne_nil _ _) ?_
  rw [literalExtent, List.cons_append, Bytes.literalLength?_slash, List.cons_append, List.head?_cons,
    if_neg (by decide), if_pos (by decide), List.tail_cons, lengthThrough, hfind]
  simp only [List.length_cons, List.length_append]

/-- A string is passed if a scanner finds its end. -/
theorem passes_string (hquote : quote = '\x22' ∨ quote = '\x27') (hbefore : isAsciiAlphanumeric before = false)
    (hend : stringLength? quote (s ++ quote :: rest) = some (s.length + 1)) (d : Nat) :
    Passes S d before (quote :: (s ++ [quote])) rest d := by
  have hslash : quote ≠ '/' := by
    rcases hquote with rfl | rfl
    · decide
    · decide
  refine .literal (List.cons_ne_nil _ _) ?_
  rw [literalExtent, List.cons_append, List.append_assoc, List.singleton_append,
    Bytes.literalLength?_of_ne_slash hslash, if_pos (by simpa using hquote), hbefore, hend]
  simp only [List.length_cons, List.length_append]
  rfl

/-- A plain atom that is no bracket is passed. -/
theorem passes_atom {a : Atom} (hopening : ∀ b, a.kind ≠ .opening b) (hclosing : ∀ b, a.kind ≠ .closing b)
    (htemplate : a.kind ≠ .templateText) (hfits : a.Fits rest) (hplain : a.Plain wide before rest)
    (hS : S.wide = true → wide = true) (hline : Unbroken S a.text rest) (d : Nat) : Passes S d before a.text rest d := by
  have hinert : Inert wide before a.text rest → Passes S d before a.text rest d :=
    fun h => (h.narrow hS).passes hline
  have hquiet : (∀ c ∈ a.text, isQuiet c = true) → Passes S d before a.text rest d :=
    fun h => passes_of_quiet h hline
  obtain ⟨kind, text⟩ := a
  -- Atoms that the scanners do not know hold nothing they look for, by assumption; all others by what they are.
  cases kind with
  | blank =>
      obtain ⟨c, rfl, hc⟩ := hfits
      refine hquiet fun e he => ?_
      rw [List.mem_singleton.mp he]
      exact isQuiet_of (p := fun c => isLineBreak c || isBlank c || c.toNat == 0xFEFF) (by decide) hc
  | lineComment =>
      rcases hplain with ⟨hbefore, hend⟩ | hplain
      case inr => exact hinert hplain
      obtain ⟨s, rfl, hs, _⟩ := hfits
      refine passes_lineComment rfl ?_ hbefore hend d
      rintro hfeed
      have hfeed : '\n' ∈ s := by simpa using hfeed
      exact absurd (hs _ hfeed) (by decide)
  | blockComment =>
      obtain ⟨s, rfl, hend⟩ := hfits
      exact passes_blockComment hend rest d
  | interpreter => exact hinert hplain
  | word =>
      obtain ⟨w, hw, rfl | rfl⟩ := hfits
      · exact hw.passes hline
      · exact Passes.append (u := ['#']) (passes_of_quiet (by decide) hline.left) (hw.passes (hline.right (u := ['#'])))
  | number => exact hquiet fun c hc => isQuiet_of (p := isNumberChar) (by decide) (hfits c hc)
  | mark =>
      cases hfits with
      | plain hs => exact hquiet fun c hc => isQuiet_of (p := (markChars.contains ·)) (by decide) (by simpa using hs c hc)
      | slash hslash hstar =>
          exact hinert (inert_slash hstar hslash trivial)
      | slashSign =>
          exact hinert (inert_slash (s := ['=']) (by simp) (by simp) (inert_of_quiet (by decide) _ _ _))
  | string =>
      rcases hplain with ⟨hbefore, hline⟩ | hplain
      case inr => exact hinert hplain
      obtain ⟨quote, body, hquote, hbody, rfl⟩ := hfits
      refine passes_string hquote hbefore (hbody.stringLength?_eq hquote (fun hreturn => hline ?_) rest) d
      exact hreturn.trans ⟨[quote], [quote], rfl⟩
  | regex => exact hinert hplain
  | templateText => exact absurd rfl htemplate
  | tagName => exact hquiet fun c hc => isQuiet_of (p := fun c => isIdentifierPart c || c == '-') (by decide) (hfits c hc)
  | tagText => exact hinert hplain
  | tagString =>
      rcases hplain with ⟨hbefore, hfeed, hslash⟩ | hplain
      case inr => exact hinert hplain
      obtain ⟨quote, s, hquote, hs, rfl⟩ := hfits
      have hfeed : '\n' ∉ s := fun h => hfeed (by simp [h])
      have hslash : s.getLast? ≠ some '\\' := by
        intro hlast
        refine hslash ?_
        rw [← List.cons_append, List.dropLast_concat, ← List.singleton_append, List.getLast?_append, hlast]
        rfl
      exact passes_string hquote hbefore (stringLength?_tag hquote s hs hfeed hslash rest) d
  | opening b => exact absurd rfl (hopening b)
  | closing b => exact absurd rfl (hclosing b)

/-! ### Groups -/

/-- What passing over atoms means in code and among the characters of a template. -/
def PassesOver (wide template : Bool) (before : Char) (as : List Atom) (rest : List Char) : Prop :=
  if template then templateExtent (textOf as ++ rest) = (templateExtent rest).map (· + (textOf as).length)
  else ∀ S : CodeScanner, (S.wide = true → wide = true) → Unbroken S (textOf as) rest → ∀ d,
    Passes S d before (textOf as) rest d

/-- A scanner either counts both brackets of a pair or takes them for themselves. -/
theorem exists_inside (S : CodeScanner) {first last : Char}
    (h : (first, last) ∈ [('(', ')'), ('[', ']'), ('\x7b', '\x7d')]) (d : Nat) :
    ∃ d', (∀ before s, S.extent d before (first :: s) = (S.extent d' first s).map (· + 1)) ∧
      ∀ before s, S.extent d' before (last :: s) = (S.extent d last s).map (· + 1) := by
  have hcases : ∀ wide, ∀ p ∈ [('(', ')'), ('[', ']'), ('\x7b', '\x7d')],
      (p.1 ∈ openings wide ∧ p.2 ∈ closings wide) ∨
        (p.1 ∉ openings wide ∧ p.1 ∉ closings wide) ∧ p.2 ∉ openings wide ∧ p.2 ∉ closings wide := by decide
  have hcode : ∀ p ∈ [('(', ')'), ('[', ']'), ('\x7b', '\x7d')],
      (p.1 ≠ '\x22' ∧ p.1 ≠ '\x27' ∧ p.1 ≠ '\x60' ∧ p.1 ≠ '/') ∧
        (p.2 ≠ '\x22' ∧ p.2 ≠ '\x27' ∧ p.2 ≠ '\x60' ∧ p.2 ≠ '/') ∧ p.1 ≠ '\n' ∧ p.2 ≠ '\n' := by decide
  obtain ⟨hfirst, hlast, hfeed, hfeed'⟩ := hcode _ h
  rcases hcases S.wide _ h with ⟨hopen, hclose⟩ | ⟨⟨hopen, hclose⟩, hopen', hclose'⟩
  · exact ⟨d + 1, fun before s => S.opening d before s hopen, fun before s => S.closing d before s hclose⟩
  · exact ⟨d, fun before s => S.other d (literalExtent_code hfirst) hopen hclose fun _ hc => absurd hc hfeed,
      fun before s => S.other d (literalExtent_code hlast) hopen' hclose' fun _ hc => absurd hc hfeed'⟩

/-- A group in code, between brackets. -/
theorem passes_pair {first last : Char} (h : (first, last) ∈ [('(', ')'), ('[', ']'), ('\x7b', '\x7d')])
    (hu : ∀ d, Passes S d first u (last :: (v ++ tail)) d) (hv : Passes S d last v tail d) :
    Passes S d before (first :: (u ++ last :: v)) tail d := by
  obtain ⟨d', hfirst, hlast⟩ := exists_inside S h d
  have hback : Passes S d' (lastChar first u) (last :: v) tail d := .cons (hlast _ _) hv
  exact .cons (hfirst _ _) (.append (hu d') hback)

/-- A template, up to the backtick behind its characters. -/
theorem passes_template (hu : templateExtent (u ++ '\x60' :: tail) = (templateExtent ('\x60' :: tail)).map (· + u.length))
    (d : Nat) : Passes S d before ('\x60' :: (u ++ ['\x60'])) tail d := by
  refine .literal (List.cons_ne_nil _ _) ?_
  rw [literalExtent, List.cons_append, List.append_assoc, List.singleton_append,
    Bytes.literalLength?_of_ne_slash (by decide), if_neg (by decide), if_pos (by decide), hu, templateExtent_tick]
  simp only [Option.map_some, List.length_cons, List.length_append, List.length_nil]
  congr 1
  omega

/-- The code in a template, up to the brace behind it. -/
theorem templateExtent_code (hu : Passes .braces 0 '\x7b' u ('\x7d' :: tail) 0) :
    templateExtent ('$' :: '\x7b' :: (u ++ '\x7d' :: tail)) = (templateExtent tail).map (· + (u.length + 3)) := by
  have hclose : ∀ before, braceExtent 1 before ('\x7d' :: tail) = some 1 := by
    intro before
    rw [braceExtent_none (literalExtent_code (by decide)), if_neg (by decide), if_pos rfl, if_pos (by decide)]
  have hgroup : braceExtent 1 '\x7b' (u ++ '\x7d' :: tail) = some (u.length + 1) := by
    rw [Passes] at hu
    refine hu.trans ?_
    show (braceExtent 1 (lastChar '\x7b' u) ('\x7d' :: tail)).map (· + u.length) = _
    rw [hclose, Option.map_some, Nat.add_comm]
  have hdrop : (u ++ '\x7d' :: tail).drop (u.length + 1) = tail := by
    rw [List.drop_length_add_append]
    rfl
  rw [templateExtent_hole, hgroup, Option.bind_some, hdrop]

/-- The characters of a template in front of others of its atoms. -/
theorem passesOver_templateText {a : Atom} {as : List Atom} {before' : Char} (htext : TemplateText a.text)
    (hdollar : a.text.getLast? = some '$' → (textOf as ++ rest).head? ≠ some '\x7b')
    (hrest : PassesOver wide true before' as rest) : PassesOver wide true before (a :: as) rest := by
  have hrest : templateExtent (textOf as ++ rest) = _ := hrest
  show templateExtent (textOf (a :: as) ++ rest) = _
  rw [textOf_cons, List.append_assoc, htext.templateExtent_eq hdollar, hrest, Option.map_map, List.length_append]
  congr 1
  funext n
  simp only [Function.comp]
  omega

section Groups

variable {b : Bracket} {first last : Atom} {inner as : List Atom}

theorem textOf_group (hopen : first.text = b.opening) (hclose : last.text = b.closing) :
    textOf (first :: (inner ++ last :: as)) = b.opening ++ (textOf inner ++ (b.closing ++ textOf as)) := by
  rw [textOf_cons, textOf_append, textOf_cons, hopen, hclose]

/-- A group in code, between brackets that a scanner may count or between those of a template. -/
theorem passesOver_group (hb : b ≠ .hole) (hopen : first.text = b.opening) (hclose : last.text = b.closing)
    (hinner : PassesOver wide (b == .template) (lastChar before first.text) inner (textOf (last :: as) ++ rest))
    (hrest : PassesOver wide false (lastChar (lastChar (lastChar before first.text) (textOf inner)) last.text) as rest) :
    PassesOver wide false before (first :: (inner ++ last :: as)) rest := by
  rw [textOf_cons, hclose, hopen] at hinner
  rw [hclose] at hrest
  intro S hS hline d
  rw [textOf_group hopen hclose] at hline ⊢
  have hpair : ∀ {c c'}, b.opening = [c] → b.closing = [c'] → (c, c') ∈ [('(', ')'), ('[', ']'), ('\x7b', '\x7d')] →
      b ≠ .template →
      Passes S d before (b.opening ++ (textOf inner ++ (b.closing ++ textOf as))) rest d := by
    intro c c' hc hc' hmem hb
    rw [hc, hc'] at hinner hline ⊢
    rw [hc'] at hrest
    rw [beq_false_of_ne hb] at hinner
    exact passes_pair hmem (fun d => hinner S hS (hline.right (u := [c])).left d)
      (hrest S hS ((hline.right (u := [c])).right.right (u := [c'])) d)
  cases b with
  | paren => exact hpair rfl rfl (by simp) (by simp)
  | square => exact hpair rfl rfl (by simp) (by simp)
  | brace => exact hpair rfl rfl (by simp) (by simp)
  | template =>
      have hwhole := @passes_template S before (textOf inner) (textOf as ++ rest) hinner d
      have hlast : lastChar before ('\x60' :: (textOf inner ++ ['\x60'])) = '\x60' := by
        rw [lastChar_cons, lastChar_append]
        rfl
      have hbehind := hrest S hS ((hline.right (u := ['\x60'])).right.right (u := ['\x60'])) d
      have htogether := hwhole.append (by rw [hlast]; exact hbehind)
      rwa [List.cons_append, List.append_assoc] at htogether
  | hole => exact absurd rfl hb

/-- Code in a template, which the scanner of templates leaves to the one of braces. -/
theorem passesOver_hole (hopen : first.text = Bracket.hole.opening) (hclose : last.text = Bracket.hole.closing)
    (hinner : PassesOver wide false (lastChar before first.text) inner (textOf (last :: as) ++ rest))
    (hrest : PassesOver wide true (lastChar (lastChar (lastChar before first.text) (textOf inner)) last.text) as rest) :
    PassesOver wide true before (first :: (inner ++ last :: as)) rest := by
  rw [textOf_cons, hclose, hopen] at hinner
  have hcode : Passes .braces 0 '\x7b' (textOf inner) ('\x7d' :: (textOf as ++ rest)) 0 :=
    hinner .braces (fun h => by cases h) (fun h => by cases h) 0
  have hrest : templateExtent (textOf as ++ rest) = _ := hrest
  have htext := @textOf_group .hole first last inner as hopen hclose
  show templateExtent (textOf (first :: (inner ++ last :: as)) ++ rest) = _
  have hassoc : textOf (first :: (inner ++ last :: as)) ++ rest =
      '$' :: '\x7b' :: (textOf inner ++ '\x7d' :: (textOf as ++ rest)) := by
    rw [htext]
    simp [Bracket.opening, Bracket.closing]
  rw [hassoc, templateExtent_code hcode, hrest, htext, Option.map_map]
  congr 1
  funext n
  simp only [Function.comp, List.length_append, Bracket.opening, Bracket.closing, List.length_cons,
    List.length_nil]
  omega

end Groups

/-- A scanner passes over plain atoms in which every bracket is closed. -/
theorem passesOver_of_grouped {template : Bool} {as : List Atom} (h : Grouped template as)
    (hfit : AllFit as rest) (hplain : AllPlain wide before as rest) :
    PassesOver wide template before as rest := by
  induction h generalizing before rest with
  | @nil template =>
      cases template with
      | false => exact fun S _ _ d => .nil
      | true => exact templateExtent_over (u := []) (by simp) rest
  | @plain template a as hopening hclosing hplace has ih =>
      obtain ⟨hfits, hfit⟩ := hfit
      obtain ⟨hatom, hplain⟩ := hplain
      have hrest := ih hfit hplain
      cases template with
      | false =>
          intro S hS hline d
          have htext : a.kind ≠ .templateText := fun hkind => absurd (hplace.mp hkind) (by decide)
          exact (passes_atom hopening hclosing htext hfits hatom hS hline.left d).append (hrest S hS hline.right d)
      | true =>
          have hkind : a.kind = .templateText := hplace.mpr rfl
          rw [Atom.Fits, hkind] at hfits
          rw [Atom.Plain, hkind] at hatom
          exact passesOver_templateText hfits hatom hrest
  | @group template b first last inner as hfirst hlast hplace _ _ ihinner ih =>
      obtain ⟨hfits, hfit⟩ := hfit
      obtain ⟨hinnerFit, hfits', hfit⟩ := hfit.unappend
      obtain ⟨-, hplain⟩ := hplain
      obtain ⟨hinnerPlain, hplain⟩ := hplain.unappend
      have hopen : first.text = b.opening := by
        rw [Atom.Fits, hfirst] at hfits
        exact hfits
      have hclose : last.text = b.closing := by
        rw [Atom.Fits, hlast] at hfits'
        exact hfits'
      have hinner := ihinner hinnerFit hinnerPlain
      have hrest := ih hfit hplain.2
      cases template with
      | false => exact passesOver_group (fun hb => absurd (hplace.mp hb) (by decide)) hopen hclose hinner hrest
      | true =>
          obtain rfl := hplace.mpr rfl
          exact passesOver_hole hopen hclose hinner hrest

/-! ### Scripts -/

variable {as : List Atom}

theorem AtomsOf.textOf_eq (h : AtomsOf s as) : textOf as = s := by
  have htext := h.cuts.text_eq
  rw [List.append_nil] at htext
  exact htext.symm

/-- A scanner passes over the plain atoms of a script, with a line feed behind them. -/
theorem AtomsOf.passes (hatoms : AtomsOf s as) (hplain : AllPlain wide ' ' as [])
    (tail : List Char) (htail : tail.head? = some '\n') (scanner : CodeScanner) (hwide : scanner.wide = true → wide = true)
    (hline : Unbroken scanner s tail) : Passes scanner 0 ' ' s tail 0 := by
  have hpass := passesOver_of_grouped hatoms.grouped (hatoms.cuts.behind htail).allFit (hplain.behind htail) scanner hwide
  rw [hatoms.textOf_eq] at hpass
  exact hpass hline 0

end Passing

end Script
end StoryDocs
