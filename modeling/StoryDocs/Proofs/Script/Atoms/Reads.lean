import StoryDocs.Proofs.Script.Atoms.Yields

/-!
# Rules that read atoms

A rule *reads* when it moves from a place to a place of the same brackets, and the literals of what it builds
are closed on the way.  One lemma for each small rule says so, for the brackets it moves over and for what
it builds; the loops read when their rounds do.  The goals hold no arithmetic over ordered modules, so
`grind` runs without its solver for it.
-/

namespace StoryDocs
namespace Script

open Grammar

variable {α β : Type} {scope : Scope} {c c' : Cursor} {m w : String} {text : List Char}
  {stack : List (Bracket × Nat)} {held : Multiset Literal} {k : Nat} {u : Unit} {b : Bool}

/-- Whether a rule leaves the brackets open that are open, and closes the literals of what it gives. -/
abbrev Reads (p : Parse α) (literals : α → Multiset Literal) : Prop :=
  ∀ ⦃scope : Scope⦄ ⦃c : Cursor⦄ ⦃a : α⦄ ⦃c' : Cursor⦄ ⦃text : List Char⦄ ⦃stack : List (Bracket × Nat)⦄
    ⦃held : Multiset Literal⦄, Yields p scope c a c' → Stands text stack held c →
      Stands text stack (held + literals a) c'

/-! ## Plain tokens -/

attribute [grind] isBracketMark Kind.isLiteral

@[grind →] theorem isPlain_of_isMark {t : Token} (h : isMark t m = true) (hm : isBracketMark m = false) :
    t.isPlain = true := by
  rw [Token.isPlain, lexeme_of_isMark h]
  simp [hm]

@[grind →] theorem isPlain_of_isName {t : Token} (h : isName t = true) : t.isPlain = true := by
  rw [isName] at h
  rw [Token.isPlain]
  split at h
  · rename_i hlexeme
    rw [hlexeme]
  · cases h

@[grind →] theorem isName_of_isWord {t : Token} (h : isWord t w = true) : isName t = true := by
  rw [isWord] at h
  rw [isName]
  split at h
  · rfl
  · cases h

@[grind →] theorem isName_of_isReference {t : Token} (h : isReference t = true) : isName t = true := by
  rw [isReference] at h
  split at h
  · rename_i hlexeme
    simp [isName, hlexeme]
  · cases h

/-! ## Moves -/

@[grind →] theorem stands_fault (h : Yields fault scope c u c') (hc : Stands text stack held c) :
    Stands text stack held c' :=
  hc.congr (yields_fault h).1

@[grind →] theorem stands_faultIf (h : Yields (faultIf b) scope c u c') (hc : Stands text stack held c) :
    Stands text stack held c' :=
  hc.congr (yields_faultIf h).1

@[grind →] theorem token_faultIf (h : Yields (faultIf b) scope c u c') : c'.token = c.token :=
  (yields_faultIf h).1

/-- Over a token that is no bracket. -/
@[grind →] theorem stands_plain (h : Yields advance scope c u c') (hplain : c.token.isPlain = true)
    (hc : Stands text stack held c) : Stands text stack held c' :=
  .of_reached (hc.behind hplain) hc.1 (yields_advance h).1

/-- Over a string. -/
theorem stands_string {value : String} (h : Yields advance scope c u c')
    (hstring : c.token.lexeme = .string value) (hc : Stands text stack held c) :
    Stands text stack (held + {.string ⟨c.token.start, c.token.stop⟩}) c' :=
  .of_reached (hc.behind_string hstring) hc.1 (yields_advance h).1

/-- Over an opening bracket. -/
theorem stands_opening {b : Bracket} (h : Yields advance scope c u c') (hmark : isMark c.token m = true)
    (hm : m.toList = b.opening) (hb : b ≠ .hole ∧ b ≠ .template) (hc : Stands text stack held c) :
    Stands text ((b, c.token.start) :: stack) held c' := by
  refine .of_reached (hc.behind_opening (lexeme_of_isMark hmark) hm hb.1) ?_ (yields_advance h).1
  obtain ⟨_, htemplate⟩ := hb
  cases b with
  | template => exact absurd rfl htemplate
  | paren => exact id
  | square => exact id
  | brace => exact id
  | hole => exact id

/-- Over a closing bracket. -/
theorem stands_closing {b : Bracket} (h : Yields advance scope c u c') (hmark : isMark c.token m = true)
    (hm : m.toList = b.closing) (hb : b ≠ .hole) (hc : Stands text ((b, k) :: stack) held c) :
    Stands text stack held c' := by
  have hreached := (hc.behind_closing (lexeme_of_isMark hmark) hm).mono (Multiset.le_add_right _ _)
  exact .of_reached hreached (hc.code_behind hb) (yields_advance h).1

attribute [grind →] yields_eatMark yields_eatWord yields_ahead yields_attempt

theorem expectMark_of_advance (h : Yields advance scope c u c') (hmark : isMark c.token m = true) :
    Yields (expectMark m) scope c () c' :=
  yields_expectMark.mpr ⟨hmark, h⟩

@[grind →] theorem stands_expectWord (h : Yields (expectWord w) scope c u c') (hc : Stands text stack held c) :
    Stands text stack held c' := by
  obtain ⟨hword, hmove⟩ := yields_expectWord.mp h
  exact stands_plain hmove (isPlain_of_isName (isName_of_isWord hword)) hc

theorem stands_expectMark (h : Yields (expectMark m) scope c u c') (hm : isBracketMark m = false)
    (hc : Stands text stack held c) : Stands text stack held c' := by
  obtain ⟨hmark, hmove⟩ := yields_expectMark.mp h
  exact stands_plain hmove (isPlain_of_isMark hmark hm) hc

-- Without the side conditions the lemma would be tried at brackets too.
grind_pattern stands_expectMark => Yields (expectMark m) scope c u c', Stands text stack held c where
  m =/= "("
  m =/= ")"
  m =/= "["
  m =/= "]"
  m =/= "\x7b"
  m =/= "\x7d"

@[grind →] theorem open_paren (h : Yields (expectMark "(") scope c u c') (hc : Stands text stack held c) :
    Stands text ((.paren, c.token.start) :: stack) held c' := by
  obtain ⟨hmark, hmove⟩ := yields_expectMark.mp h
  exact stands_opening hmove hmark rfl (by decide) hc

@[grind →] theorem close_paren (h : Yields (expectMark ")") scope c u c')
    (hc : Stands text ((.paren, k) :: stack) held c) : Stands text stack held c' := by
  obtain ⟨hmark, hmove⟩ := yields_expectMark.mp h
  exact stands_closing hmove hmark rfl (by decide) hc

@[grind →] theorem open_square (h : Yields (expectMark "[") scope c u c') (hc : Stands text stack held c) :
    Stands text ((.square, c.token.start) :: stack) held c' := by
  obtain ⟨hmark, hmove⟩ := yields_expectMark.mp h
  exact stands_opening hmove hmark rfl (by decide) hc

@[grind →] theorem close_square (h : Yields (expectMark "]") scope c u c')
    (hc : Stands text ((.square, k) :: stack) held c) : Stands text stack held c' := by
  obtain ⟨hmark, hmove⟩ := yields_expectMark.mp h
  exact stands_closing hmove hmark rfl (by decide) hc

@[grind →] theorem open_brace (h : Yields (expectMark "\x7b") scope c u c') (hc : Stands text stack held c) :
    Stands text ((.brace, c.token.start) :: stack) held c' := by
  obtain ⟨hmark, hmove⟩ := yields_expectMark.mp h
  exact stands_opening hmove hmark rfl (by decide) hc

@[grind →] theorem close_brace (h : Yields (expectMark "\x7d") scope c u c')
    (hc : Stands text ((.brace, k) :: stack) held c) : Stands text stack held c' := by
  obtain ⟨hmark, hmove⟩ := yields_expectMark.mp h
  exact stands_closing hmove hmark rfl (by decide) hc

@[grind →] theorem stands_eatSemicolon (h : Yields eatSemicolon scope c b c') (hc : Stands text stack held c) :
    Stands text stack held c' := by
  simp [eatSemicolon] at h
  grind -linarith

@[grind →] theorem stands_expectSemicolon (h : Yields expectSemicolon scope c u c')
    (hc : Stands text stack held c) : Stands text stack held c' := by
  simp [expectSemicolon] at h
  grind -linarith

/-! ## Loops -/

/-- A loop keeps what every round keeps, and gives what the last round gives. -/
theorem yields_iterate {σ : Type} {step : σ → Parse (σ ⊕ α)} (inv : σ → Cursor → Prop)
    (post : α → Cursor → Prop)
    (hstep : ∀ x c r c', inv x c → Yields (step x) scope c r c' →
      match r with
      | .inl y => inv y c'
      | .inr a => post a c') {n : Nat} {x : σ} {a : α} (hx : inv x c)
    (h : Yields (iterate step n x) scope c a c') : post a c' := by
  induction n generalizing x c with
  | zero => exact absurd h yields_reject
  | succ n ih =>
      obtain ⟨r, c₁, hround, h⟩ := yields_bind.mp h
      have hr := hstep x c r c₁ hx hround
      cases r with
      | inl y => exact ih hr h
      | inr a' =>
          obtain ⟨rfl, rfl⟩ := yields_pure.mp h
          exact hr

theorem yields_repeatFrom {σ : Type} {step : σ → Parse (σ ⊕ α)} (inv : σ → Cursor → Prop)
    (post : α → Cursor → Prop)
    (hstep : ∀ x c r c', inv x c → Yields (step x) scope c r c' →
      match r with
      | .inl y => inv y c'
      | .inr a => post a c') {x : σ} {a : α} (hx : inv x c)
    (h : Yields (repeatFrom x step) scope c a c') : post a c' := by
  obtain ⟨_, _, hread, h⟩ := yields_bind.mp h
  obtain ⟨rfl, rfl⟩ := yields_read.mp hread
  exact yields_iterate inv post hstep hx h

/-- Rounds that collect what they read. -/
theorem stands_repeatFrom {σ : Type} {step : σ → Parse (σ ⊕ α)} {x : σ} {a : α}
    (h : Yields (repeatFrom x step) scope c a c') (collected : σ → Multiset Literal)
    (literals : α → Multiset Literal)
    (hstep : ∀ x ⦃c r c' text stack held⦄, Yields (step x) scope c r c' →
      Stands text stack (held + collected x) c →
      match r with
      | .inl y => Stands text stack (held + collected y) c'
      | .inr a => Stands text stack (held + literals a) c') :
    ∀ ⦃text stack held⦄, Stands text stack (held + collected x) c → Stands text stack (held + literals a) c' :=
  fun text stack held hc => yields_repeatFrom (fun x c => Stands text stack (held + collected x) c)
    (fun a c => Stands text stack (held + literals a) c) (fun x _ _ _ hinv hround => hstep x hround hinv) hc h

attribute [grind =] Tree.literals_node Tree.literals_string Tree.literalsOf_nil Tree.literalsOf_cons
  Tree.literalsOf_append Tree.literalsOf_reverse

theorem Reads.separated (close : String) {entry : Parse Tree} (hentry : Reads entry Tree.literals) :
    Reads (separated close entry) Tree.literalsOf := by
  intro scope c ts c' text stack held h hc
  refine stands_repeatFrom h Tree.literalsOf Tree.literalsOf (fun done c r c' text stack held h hc => ?_)
    (by simpa using hc)
  simp at h
  grind -linarith

theorem Reads.many {stop : Parse Bool} {entry : Parse Tree}
    (hstop : ∀ ⦃scope c b c'⦄, Yields stop scope c b c' → c' = c) (hentry : Reads entry Tree.literals) :
    Reads (many stop entry) Tree.literalsOf := by
  intro scope c ts c' text stack held h hc
  refine stands_repeatFrom h Tree.literalsOf Tree.literalsOf (fun done c r c' text stack held h hc => ?_)
    (by simpa using hc)
  simp at h
  grind -linarith

/-! ## Rules by name -/

/-- Whether a rule builds on nothing that is read already, and builds no literal out of other parts. -/
abbrev Rule.isPlain : Rule → Bool
  | .operators _ _ => false
  | .subscripts _ _ => false
  | .classTail _ kind _ => !kind.isLiteral
  | _ => true

/-- Whether all rules read. -/
structure Rules.Sound (rules : Rules) : Prop where
  reads : ∀ ⦃r scope c t c' text stack held⦄, Yields (rules r) scope c t c' → r.isPlain = true →
    Stands text stack held c → Stands text stack (held + t.literals) c'
  operators : ∀ left least ⦃scope c t c' text stack held⦄, Yields (rules (.operators left least)) scope c t c' →
    Stands text stack (held + left.literals) c → Stands text stack (held + t.literals) c'
  subscripts : ∀ base noCall ⦃scope c t c' text stack held⦄,
    Yields (rules (.subscripts base noCall)) scope c t c' →
      Stands text stack (held + base.literals) c → Stands text stack (held + t.literals) c'
  /-- An element ends in front of the bracket that closes it. -/
  element : ∀ ⦃scope c t c'⦄, Yields (rules .element) scope c t c' → isMark c'.token ">" = true

theorem Rules.Sound.rule {rules : Rules} (h : rules.Sound) (r : Rule) (hr : r.isPlain = true) :
    Reads (rules r) Tree.literals :=
  fun _ _ _ _ _ _ _ hyields hc => h.reads hyields hr hc


end Script
end StoryDocs
