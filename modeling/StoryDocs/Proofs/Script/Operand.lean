import StoryDocs.Proofs.Script.Running

/-!
# Operands

An assignment that is one operand is read through all the rules of operators, none of which finds a sign
of its own: no rule goes on at a token that closes what is around the operand.
-/

namespace StoryDocs
namespace Script

/-- A separator or a closing bracket. -/
def Token.Closes (t : Token) : Prop :=
  ∃ m ∈ [",", ";", ")", "]", "\x7d"], t.lexeme = .mark m

/-- The first token of an operand, which no operator stands in front of. -/
structure Token.StartsOperand (t : Token) : Prop where
  mark : ∀ m ∈ ["<", "(", "++", "--", "+", "-", "~", "!"], Grammar.isMark t m = false
  word : ∀ w ∈ ["async", "yield", "delete", "void", "typeof", "await", "new", "super", "import"],
    Grammar.isWord t w = false

/-- The first token of an operand that may be a bracket. -/
structure Token.StartsPrimary (t : Token) : Prop where
  mark : ∀ m ∈ ["<", "++", "--", "+", "-", "~", "!"], Grammar.isMark t m = false
  word : ∀ w ∈ ["async", "yield", "delete", "void", "typeof", "await", "new", "super", "import"],
    Grammar.isWord t w = false

theorem Token.StartsOperand.primary {t : Token} (h : t.StartsOperand) : t.StartsPrimary where
  mark := fun m hm => h.mark m (by
    have hmarks : ∀ m ∈ ["<", "++", "--", "+", "-", "~", "!"],
      m ∈ ["<", "(", "++", "--", "+", "-", "~", "!"] := by decide
    exact hmarks m hm)
  word := h.word

namespace Grammar

variable {scope : Scope} {c c₁ c' : Cursor} {t : Token} {m w : String} {e e' : Tree} {d : Nat}
  {rs : Rules}

theorem isMark_of_closes (h : t.Closes) (hm : m ∉ [",", ";", ")", "]", "\x7d"]) :
    isMark t m = false := by
  obtain ⟨text, hmem, hlexeme⟩ := h
  rw [isMark_of_mark hlexeme, beq_eq_false_iff_ne]
  rintro rfl
  exact hm hmem

theorem isWord_of_closes (h : t.Closes) (w : String) : isWord t w = false := by
  obtain ⟨text, _, hlexeme⟩ := h
  exact isWord_of_mark hlexeme w

theorem operatorAt_of_closes (h : t.Closes) (inAllowed : Bool) : operatorAt t inAllowed = none := by
  obtain ⟨text, hmem, hlexeme⟩ := h
  simp only [List.mem_cons, List.not_mem_nil, or_false] at hmem
  rw [operatorAt, hlexeme]
  rcases hmem with rfl | rfl | rfl | rfl | rfl <;> rfl

theorem assignmentAt_of_closes (h : t.Closes) : assignmentAt t = none := by
  obtain ⟨text, hmem, hlexeme⟩ := h
  simp only [List.mem_cons, List.not_mem_nil, or_false] at hmem
  rw [assignmentAt, hlexeme]
  rcases hmem with rfl | rfl | rfl | rfl | rfl <;> rfl

/-! ## Behind an operand -/

theorem plainStep?_closes (h : c.token.Closes) (hsuper : e.kind ≠ .superRef)
    (himport : e.kind ≠ .importRef) (noCall : Bool) :
    plainStep? rs e noCall scope c = some (none, c) := by
  unfold plainStep?
  simp (disch := decide) [isMark_of_closes h, hsuper, himport]

theorem subscript?_closes (h : c.token.Closes) (hsuper : e.kind ≠ .superRef)
    (himport : e.kind ≠ .importRef) (noCall : Bool) :
    subscript? rs e noCall scope c = some (none, c) := by
  have hplain := @plainStep?_closes scope c e rs h hsuper himport noCall
  unfold subscript?
  simp (disch := decide) [isMark_of_closes h, hplain]

theorem subscripts_closes (h : c.token.Closes) (hsuper : e.kind ≠ .superRef)
    (himport : e.kind ≠ .importRef) (noCall : Bool) :
    subscripts rs e noCall scope c = some (e, c) := by
  have hstep := @subscript?_closes scope c e rs h hsuper himport noCall
  simp [subscripts, repeatFrom, iterate, run_bind, hstep]

theorem operators_closes (h : c.token.Closes) (least : Nat) :
    operators rs e least scope c = some (e, c) := by
  simp [operators, repeatFrom, iterate, run_bind, isWord_of_closes h, operatorAt_of_closes h]

theorem assignmentTail_closes (h : c.token.Closes) : assignmentTail rs e scope c = some (e, c) := by
  simp [assignmentTail, assignmentAt_of_closes h]

/-! ## In front of an operand -/

theorem asyncArrow?_operand (h : c.token.StartsOperand) :
    asyncArrow? rs scope c = some (none, c) := by
  have hasync : isWord c.token "async" = false := h.word _ (by decide)
  simp [asyncArrow?, hasync]

theorem atArrow_operand (h : c.token.StartsOperand) (isAsync : Bool) :
    atArrow rs isAsync scope c = some (false, c) := by
  have hmark : isMark c.token "(" = false := h.mark _ (by decide)
  simp [atArrow, hmark]

theorem arrow?_operand (h : c.token.StartsOperand)
    (harrow : isReference c.token = true → isMark (c.next scope.bound).token "=>" = false) :
    arrow? rs scope c = some (none, c) := by
  have hyield : isWord c.token "yield" = false := h.word _ (by decide)
  cases href : isReference c.token with
  | true =>
      simp [arrow?, run_bind_of (asyncArrow?_operand h), run_bind_of (atArrow_operand h false), href,
        harrow href]
  | false =>
      simp [arrow?, run_bind_of (asyncArrow?_operand h), run_bind_of (atArrow_operand h false), href,
        hyield]

theorem atElement_operand (h : c.token.StartsPrimary) : atElement scope c = some (false, c) := by
  have hmark : isMark c.token "<" = false := h.mark _ (by decide)
  simp [atElement, hmark]

theorem unaryOperator?_operand (h : t.StartsPrimary) : unaryOperator? t = none := by
  simp [unaryOperator?, h.word _, h.mark _]

theorem memberOrNew_operand (h : c.token.StartsPrimary)
    (hprimary : primary rs scope c = some (e, c₁))
    (hsteps : rs (.subscripts e true) scope c₁ = some (e', c')) :
    memberOrNew rs scope c = some (e', c') := by
  simp [memberOrNew, h.word _, run_bind_of hprimary, hsteps]

theorem leftSide_operand (h : c.token.StartsPrimary)
    (hmember : rs .memberOrNew scope c = some (e, c')) (hclose : c'.token.Closes) :
    leftSide rs scope c = some (e, c') := by
  have hangle : isMark c'.token "<" = false := isMark_of_closes hclose (by decide)
  have hbracket : isMark c'.token "(" = false := isMark_of_closes hclose (by decide)
  simp [leftSide, run_bind_of (atElement_operand h), h.word _, run_bind_of hmember, hangle, hbracket]

theorem unary_operand (h : c.token.StartsPrimary) (hleft : leftSide rs scope c = some (e, c'))
    (hclose : c'.token.Closes) : unary rs scope c = some (e, c') := by
  have hangle : eatMarkIf (scope.features.types && !scope.features.tags) "<" scope c =
      some (false, c) := by
    rw [eatMarkIf]
    split
    · exact run_eatMark_of_not (h.mark _ (by decide))
    · rfl
  have hplus : isMark c'.token "++" = false := isMark_of_closes hclose (by decide)
  have hminus : isMark c'.token "--" = false := isMark_of_closes hclose (by decide)
  simp [unary, run_bind_of hangle, h.mark _, h.word _, unaryOperator?_operand h, run_bind_of hleft, hplus, hminus]

theorem conditional_operand (hunary : rs .unary scope c = some (e, c'))
    (hoperators : rs (.operators e 0) scope c' = some (e, c')) (hclose : c'.token.Closes) :
    conditional rs scope c = some (e, c') := by
  have hquestion : isMark c'.token "?" = false := isMark_of_closes hclose (by decide)
  simp [conditional, run_bind_of hunary, run_bind_of hoperators, hquestion]

/-- An assignment that no operator is a part of, and no function. -/
theorem assignment_leftSide (h : c.token.StartsPrimary) (hscope : scope.inGenerator = false)
    (harrow : arrow? (rules (d + 3)) scope c = some (none, c))
    (hleft : leftSide (rules (d + 2)) scope c = some (e, c')) (hclose : c'.token.Closes) :
    rules (d + 4) .assignment scope c = some (e, c') := by
  have hunary : rules (d + 3) .unary scope c = some (e, c') := unary_operand h hleft hclose
  have hoperators : rules (d + 3) (.operators e 0) scope c' = some (e, c') := operators_closes hclose 0
  have hplain : plainAssignment (rules (d + 3)) scope c = some (e, c') := by
    simp [plainAssignment, eatWordIf, hscope, run_bind_of harrow,
      run_bind_of (conditional_operand hunary hoperators hclose), assignmentTail_closes hclose]
  show assignment (rules (d + 3)) scope c = some (e, c')
  simp [assignment, h.mark _, hplain]

/-- An assignment that is one operand and no function. -/
theorem assignment_primary (h : c.token.StartsPrimary) (hscope : scope.inGenerator = false)
    (harrow : arrow? (rules (d + 3)) scope c = some (none, c))
    (hprimary : primary (rules (d + 1)) scope c = some (e, c₁))
    (hsteps : rules (d + 1) (.subscripts e true) scope c₁ = some (e', c'))
    (hclose : c'.token.Closes) : rules (d + 4) .assignment scope c = some (e', c') := by
  have hmember : rules (d + 2) .memberOrNew scope c = some (e', c') := memberOrNew_operand h hprimary hsteps
  exact assignment_leftSide h hscope harrow (leftSide_operand h hmember hclose) hclose

/-- An assignment that is one operand. -/
theorem assignment_operand (h : c.token.StartsOperand) (hscope : scope.inGenerator = false)
    (harrow : isReference c.token = true → isMark (c.next scope.bound).token "=>" = false)
    (hprimary : primary (rules (d + 1)) scope c = some (e, c₁))
    (hsteps : rules (d + 1) (.subscripts e true) scope c₁ = some (e', c'))
    (hclose : c'.token.Closes) : rules (d + 4) .assignment scope c = some (e', c') :=
  assignment_primary h.primary hscope (arrow?_operand h harrow) hprimary hsteps hclose

end Grammar
end Script
end StoryDocs
