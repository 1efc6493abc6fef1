import StoryDocs.Proofs.Script.Atoms.Patterns
import StoryDocs.Script.Grammar.Tag

/-!
# Tags read

Names and strings of tags and the text between tags are no tokens, but atoms of their own.  An element ends in
front of the bracket that closes it, and code in braces in front of its brace.
-/

namespace StoryDocs
namespace Script

open Grammar

variable {rules : Rules} {scope : Scope} {c c' : Cursor} {text : List Char} {stack : List (Bracket × Nat)}
  {held : Multiset Literal} {t : Tree}

/-! ## Names and attributes -/

theorem span_eq {p : Char → Bool} {s front rest : List Char} (h : s.span p = (front, rest)) :
    s = front ++ rest ∧ ∀ c ∈ front, p c = true := by
  rw [List.span_eq_takeWhile_dropWhile] at h
  obtain ⟨rfl, rfl⟩ := Prod.mk.inj h
  exact ⟨List.takeWhile_append_dropWhile.symm, fun c hc => List.all_eq_true.mp List.all_takeWhile c hc⟩

@[grind →] theorem stands_tagWord (h : Yields tagWord scope c t c') (hc : Stands text stack held c) :
    Stands text stack held c' := by
  rw [tagWord] at h
  simp only [↓yields_looks] at h
  obtain ⟨hname, h⟩ := h
  obtain ⟨hhere, hchars⟩ := span_eq (Prod.eta (c.token.here.span _)).symm
  generalize c.token.here.span _ = split at h hhere hchars
  simp only [yields_bind, yields_finish] at h
  obtain ⟨_, _, c₁, hresume, rfl, rfl⟩ := h
  obtain rfl := yields_resumeAt hresume
  have hbad : c.token.lexeme ≠ .bad := by
    intro hlexeme
    rw [isName, hlexeme] at hname
    cases hname
  have hfront := hc.front hbad
  rw [hhere] at hfront
  exact .of_reached (hfront.leaf hc.1 (k := .tagName) hchars (by simp)) hc.1 rfl

@[grind →] theorem stands_tagNamespaced (h : Yields tagNamespaced scope c t c') (hc : Stands text stack held c) :
    Stands text stack held c' := by
  rw [tagNamespaced] at h
  simp only [↓yields_looks, yields_bind, yields_ite, yields_finish, yields_pure] at h
  grind -linarith

@[grind →] theorem stands_tagName (h : Yields tagName scope c t c') (hc : Stands text stack held c) :
    Stands text stack held c' := by
  rw [tagName] at h
  simp only [↓yields_looks, yields_bind] at h
  obtain ⟨first, c₁, hfirst, hloop⟩ := h
  refine yields_repeatFrom (fun _ c => Stands text stack held c) (fun _ c => Stands text stack held c)
    (fun t c r c' hc h => ?_) (stands_tagNamespaced hfirst hc) hloop
  simp only [yields_bind, yields_ite, yields_pure] at h
  grind -linarith

theorem splitQuoted_eq {quote : Char} {s inner rest : List Char} (h : splitQuoted quote s = some (inner, rest)) :
    s = inner ++ quote :: rest ∧ quote ∉ inner := by
  rw [splitQuoted] at h
  split at h
  · rename_i front first tail hspan
    obtain ⟨rfl, rfl⟩ := Prod.mk.inj (Option.some.inj h)
    obtain ⟨rfl, hfront⟩ := span_eq hspan
    rw [List.span_eq_takeWhile_dropWhile] at hspan
    have hstop := List.head?_dropWhile_not (· != quote) (front ++ first :: tail)
    rw [(Prod.mk.inj hspan).2] at hstop
    obtain rfl : first = quote := by simpa using hstop
    exact ⟨rfl, fun hmem => by simpa using hfront _ hmem⟩
  · cases h

/-- An expression in braces ends in front of its closing brace. -/
theorem stands_bracedExpression {e : Option Tree} (hr : rules.Sound)
    (h : Yields (bracedExpression rules) scope c e c') (hc : Stands text stack held c) :
    isMark c'.token "\x7d" = true ∧
      ∃ k, Stands text ((.brace, k) :: stack) (held + Tree.literalsOf e.toList) c' := by
  have hrules := hr.reads
  rw [bracedExpression] at h
  simp only [↓yields_looks, yields_bind, yields_ite, yields_pure] at h
  obtain ⟨_, c₁, hopen, h⟩ := h
  have hinner := open_brace hopen hc
  clear hopen hc
  split at h
  · rename_i hmark
    obtain ⟨rfl, rfl⟩ := h
    exact ⟨hmark, _, by simpa using hinner⟩
  · obtain ⟨_, c₂, hdots, e, c₃, he, hmark, rfl, rfl⟩ := h
    refine ⟨hmark, c.token.start, ?_⟩
    rw [Option.toList_some, Tree.literalsOf_cons, Tree.literalsOf_nil, add_zero]
    grind -linarith

@[grind →] theorem reads_attributeValue (hr : rules.Sound) : Reads (attributeValue rules) Tree.literals := by
  intro scope c t c' text stack held h hc
  rw [attributeValue, yields_token_bind] at h
  split at h
  · rename_i first s hhere
    rw [yields_if] at h
    rcases h with ⟨hquote, h⟩ | ⟨_, h⟩
    · split at h
      -- A string of a tag has no escapes and is no string of the module.
      · rename_i inner rest hsplit
        obtain ⟨rfl, hinner⟩ := splitQuoted_eq hsplit
        simp only [yields_bind, yields_finish] at h
        obtain ⟨_, c₁, hresume, rfl, rfl⟩ := h
        obtain rfl := yields_resumeAt hresume
        have hfront : Reached text stack held (first :: (inner ++ [first]) ++ rest) c.token.start := by
          simpa using hc.front_of_here hhere
        have hbehind := hfront.leaf hc.1 (k := .tagString) ⟨first, inner, by simpa using hquote, hinner, rfl⟩
          (by simp)
        rw [Tree.literals_node rfl, Tree.literalsOf_nil, add_zero]
        refine ⟨hc.1, _, _, scope.bound, hbehind, ?_⟩
        simp [Nat.add_assoc]
      · exact absurd h yields_reject
    rw [yields_if] at h
    rcases h with ⟨_, h⟩ | ⟨_, h⟩
    · rw [yields_bind] at h
      obtain ⟨e, c₁, he, h⟩ := h
      split at h
      · obtain ⟨hmark, k, hstands⟩ := stands_bracedExpression hr he hc
        simp only [yields_bind, yields_finish] at h
        grind -linarith [→ expectMark_of_advance]
      · exact absurd h yields_reject
    rw [yields_if] at h
    rcases h with ⟨_, h⟩ | ⟨_, h⟩
    · have hclosed := hr.element
      have hrules := hr.reads
      simp only [yields_bind, yields_pure] at h
      grind -linarith
    · exact absurd h yields_reject
  · exact absurd h yields_reject

@[grind →] theorem reads_tagAttribute (hr : rules.Sound) : Reads (tagAttribute rules) Tree.literals := by
  intro scope c t c' text stack held h hc
  have hrules := hr.reads
  rw [tagAttribute] at h
  simp only [↓yields_looks, yields_bind, yields_ite, yields_finish] at h
  grind -linarith

/-! ## Children and elements -/

/-- One round of the children of a tag, from a place behind a bracket that closes a tag. -/
theorem reads_tagChildren (hr : rules.Sound) {ts : List Tree} (h : Yields (tagChildren rules) scope c ts c')
    (hmark : isMark c.token ">" = true) (hc : Stands text stack held c) :
    Stands text stack (held + Tree.literalsOf ts) c' := by
  rw [tagChildren, yields_token_bind] at h
  refine yields_repeatFrom
    (fun (x : List Tree × List Char × Nat) _ => Reached text stack (held + Tree.literalsOf x.1) x.2.1 x.2.2)
    (fun ts c => Stands text stack (held + Tree.literalsOf ts) c) ?_
    (by simpa using hc.behind (isPlain_of_isMark hmark rfl)) h
  rintro ⟨done, s, n⟩ c₁ r c₂ hinv hround
  dsimp only at hinv hround
  obtain ⟨hs, hchars⟩ := span_eq (Prod.eta (s.span _)).symm
  generalize s.span _ = split at hround hs hchars
  obtain ⟨between, rest⟩ := split
  simp only [↓yields_looks] at hround
  obtain ⟨hloose, hround⟩ := hround
  rw [yields_bind] at hround
  obtain ⟨_, c₃, hresume, hround⟩ := hround
  obtain rfl := yields_resumeAt hresume
  have hdone : Tree.literalsOf (if between.isEmpty = true then done else
      Tree.node .tagText ⟨n, n + between.length⟩ (String.ofList between) [] :: done) = Tree.literalsOf done := by
    split
    · rfl
    · rw [Tree.literalsOf_cons, Tree.literals_node rfl, Tree.literalsOf_nil, zero_add]
  -- The text up to the next tag or brace is one atom, whether or not it is kept as a child.
  have hfits : Atom.Fits ⟨.tagText, between⟩ rest := by
    intro d hd hmem
    have hspan := hchars d hd
    have hnot : hasLooseBracket between = false := by simpa using hloose
    have hloosed := List.any_eq_false.mp hnot d hd
    grind -linarith
  rw [hs] at hinv
  have hfront := hinv.leaf hc.1 hfits (by simp)
  have hstands : Stands text stack (held + Tree.literalsOf done)
      { c₁ with token := Token.read scope.bound rest (n + between.length), lastStop := n + between.length } :=
    .of_reached hfront hc.1 rfl
  clear hresume hs hinv hfits hfront hloose hchars
  simp only [↓yields_looks, yields_bind, yields_ite, yields_pure] at hround
  split at hround
  -- An expression in braces.
  · obtain ⟨inner, c₄, hinner, rfl, rfl⟩ := hround
    obtain ⟨hbrace, k, hstands'⟩ := stands_bracedExpression hr hinner hstands
    have hbehind := @Stands.behind_closing _ _ _ _ .brace _ _ hstands' (lexeme_of_isMark hbrace) rfl
    show Reached text stack (held + Tree.literalsOf (_ :: _)) _ _
    rw [Tree.literalsOf_cons, Tree.literals_node rfl, hdone, add_comm (Tree.literalsOf inner.toList), ← add_assoc]
    simpa [Nesting.closed] using hbehind
  · obtain ⟨hopen, hround⟩ := hround
    split at hround
    -- The closing tag, read up to its name.
    · obtain ⟨_, c₄, hmove, _, c₅, hmove', rfl, rfl⟩ := hround
      show Stands text stack (held + Tree.literalsOf (List.reverse _)) _
      rw [Tree.literalsOf_reverse, hdone]
      grind -linarith [→ yields_advance]
    -- A child, whose last bracket is still the current token.
    · obtain ⟨child, c₄, hchild, rfl, rfl⟩ := hround
      have hbehind := (hr.rule .element rfl hchild hstands).behind (isPlain_of_isMark (hr.element hchild) rfl)
      show Reached text stack (held + Tree.literalsOf (_ :: _)) _ _
      rw [Tree.literalsOf_cons, hdone, add_comm child.literals, ← add_assoc]
      exact hbehind

@[simp] theorem yields_finishHere {k : Kind} {start : Nat} {name : String} {parts : List Tree} :
    Yields (finishHere k start name parts) scope c t c' ↔
      t = .node k ⟨start, c.token.stop⟩ name parts ∧ c' = c :=
  yields_look rfl

theorem isMark_of_many {marks : List String} {entry : Parse Tree} {ts : List Tree}
    (h : Yields (many (atMarks marks) entry) scope c ts c') : marks.any (isMark c'.token) = true := by
  refine yields_repeatFrom (fun _ _ => True) (fun _ c => marks.any (isMark c.token) = true)
    (fun done c r c' _ hround => ?_) trivial h
  simp only [↓yields_looks, yields_bind, yields_ite, yields_pure] at hround
  grind -linarith

/-- An element ends in front of the bracket that closes it. -/
theorem isMark_of_element (h : Yields (element rules) scope c t c') : isMark c'.token ">" = true := by
  rw [element] at h
  simp only [pure_bind, ↓yields_looks, yields_bind, yields_ite, yields_finishHere, Bool.and_eq_true] at h
  grind -linarith

theorem reads_element (hr : rules.Sound) : Reads (element rules) Tree.literals := by
  intro scope c t c' text stack held h hc
  have hattributes := @Reads.many (atMarks ["/", ">"]) _ (fun _ _ _ _ h => (yields_atMarks.mp h).2)
    (reads_tagAttribute hr)
  rw [element] at h
  simp only [pure_bind, ↓yields_looks, yields_bind, yields_ite, yields_finishHere, Bool.and_eq_true] at h
  obtain ⟨_, c₁, hopen, h⟩ := h
  have hinside := stands_expectMark hopen rfl hc
  clear hopen hc
  split at h
  · obtain ⟨children, c₂, hchildren, _, rfl, rfl⟩ := h
    rw [Tree.literals_node rfl]
    -- A fragment: its tags have no names.
    exact reads_tagChildren hr hchildren ‹_› hinside
  obtain ⟨name, c₂, hname, h⟩ := h
  have hnamed := stands_tagName hname hinside
  clear hname hinside
  split at h
  -- With type arguments and without them: the tag closes itself, or children and a closing tag follow.
  · obtain ⟨types, _, htypes, attrs, c₃, hattrs, _, c₄, hslash, h⟩ := h
    have htyped := hr.rule .typeArguments rfl htypes hnamed
    clear htypes hnamed
    have hstands' := hattributes hattrs htyped
    have hmark := isMark_of_many hattrs
    clear hattrs hattributes
    split at h
    · grind -linarith
    · obtain ⟨children, c₅, hchildren, closing, c₆, hclosing, _, rfl, rfl⟩ := h
      have hcloses : c₄ = c₃ ∧ isMark c₄.token ">" = true := by
        grind -linarith
      obtain ⟨rfl, hcloses⟩ := hcloses
      have hbetween := stands_tagName hclosing (reads_tagChildren hr hchildren hcloses hstands')
      clear hchildren hclosing hstands'
      grind -linarith
  · obtain ⟨attrs, c₃, hattrs, _, c₄, hslash, h⟩ := h
    have hstands' := hattributes hattrs hnamed
    have hmark := isMark_of_many hattrs
    clear hattrs hattributes
    split at h
    · grind -linarith
    · obtain ⟨children, c₅, hchildren, closing, c₆, hclosing, _, rfl, rfl⟩ := h
      have hcloses : c₄ = c₃ ∧ isMark c₄.token ">" = true := by
        grind -linarith
      obtain ⟨rfl, hcloses⟩ := hcloses
      have hbetween := stands_tagName hclosing (reads_tagChildren hr hchildren hcloses hstands')
      clear hchildren hclosing hstands'
      grind -linarith

end Script
end StoryDocs
