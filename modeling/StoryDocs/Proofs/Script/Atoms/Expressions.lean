import StoryDocs.Proofs.Script.Atoms.Classes
import StoryDocs.Proofs.Script.Atoms.Tags
import StoryDocs.Script.Grammar.Expression

/-!
# Expressions read

The rules for expressions leave the brackets open that are open, and the literals of what they build are
closed.  What follows a base or a left operand is put together with it.
-/

namespace StoryDocs
namespace Script

open Grammar

variable {rules : Rules} {scope : Scope} {c c' : Cursor} {m : String} {text : List Char} {stack : List (Bracket × Nat)}
  {held : Multiset Literal} {b : Bool} {t base left : Tree} {ts types : List Tree} {start : Nat}

/-! ## Primary expressions -/

@[grind →] theorem reads_parenthesized (hr : rules.Sound) : Reads (parenthesized rules) Tree.literals := by
  intro scope c t c' text stack held h hc
  have hitems := Reads.separated ")" (hr.rule .assignment rfl)
  rw [parenthesized] at h
  simp only [↓yields_looks, yields_bind, yields_bracketed] at h
  grind -linarith

/-- Decorators are put into the class behind them. -/
@[grind →] theorem reads_classExpression (hr : rules.Sound) : Reads (classExpression rules) Tree.literals := by
  intro scope c t c' text stack held h hc
  rw [classExpression] at h
  simp only [pure_bind, ↓yields_looks, yields_bind, yields_ite, yields_pure] at h
  split at h
  · obtain ⟨decorators, c₁, hdecorators, member, c₂, hmember, rfl, rfl⟩ := h
    have hread := hr.rule .decorators rfl hdecorators hc
    refine stands_decorated (hr.rule _ rfl hmember ?_)
    grind -linarith
  · obtain ⟨member, c₂, hmember, rfl, rfl⟩ := h
    refine stands_decorated (hr.rule _ rfl hmember ?_)
    simpa using hc

/-- A word that is an expression of its own is a word, and no literal is built of it. -/
theorem isPlain_of_wordLiteral? {tok : Token} {kind : Kind} (h : wordLiteral? tok = some kind) :
    tok.isPlain = true ∧ kind.isLiteral = false := by
  rw [wordLiteral?] at h
  grind -linarith

@[grind →] theorem reads_primary (hr : rules.Sound) : Reads (primary rules) Tree.literals := by
  intro scope c t c' text stack held h hc
  have hrules := hr.reads
  have hfunction := @reads_function _ false .function hr rfl
  rw [primary] at h
  simp only [↓yields_looks, yields_bind, yields_ite] at h
  split at h
  · grind -linarith
  split at h
  · grind -linarith
  split at h
  · grind -linarith
  split at h
  · grind -linarith
  split at h
  · grind -linarith
  split at h
  · grind -linarith
  split at h
  · grind -linarith
  obtain ⟨isAsync, c₁, hasync, h⟩ := h
  obtain rfl := yields_atAsyncFunction hasync
  clear hasync
  split at h
  · exact hfunction h hc
  split at h
  · rename_i kind hword
    obtain ⟨hplain, hkind⟩ := isPlain_of_wordLiteral? hword
    simp only [yields_bind, yields_finish] at h
    obtain ⟨_, c₂, hmove, rfl, rfl⟩ := h
    rw [Tree.literals_node hkind, Tree.literalsOf_nil, add_zero]
    exact stands_plain hmove hplain hc
  · split at h
    · simp only [↓yields_looks, yields_bind, yields_pure] at h
      grind -linarith
    · grind -linarith

/-! ## Steps behind a base -/

theorem reads_expressionTypes (hr : rules.Sound) : Reads (expressionTypes rules) Tree.literals := by
  intro scope c t c' text stack held h hc
  have hrules := hr.reads
  rw [expressionTypes] at h
  simp only [↓yields_looks, yields_bind, yields_pure] at h
  grind -linarith

@[grind →] theorem reads_memberName : Reads (memberName base) Tree.literals := by
  intro scope c t c' text stack held h hc
  rw [memberName] at h
  simp only [↓yields_looks] at h
  split at h
  · simp only [↓yields_looks] at h
    grind -linarith
  · grind -linarith

@[grind →] theorem stands_optionalStep (hr : rules.Sound) (h : Yields (optionalStep rules base) scope c t c')
    (hc : Stands text stack (held + base.literals) c) : Stands text stack (held + t.literals) c' := by
  have hrules := hr.reads
  rw [optionalStep] at h
  simp only [pure_bind, ↓yields_looks, yields_bind, yields_ite, yields_bracketed, yields_finish, List.cons_append,
    List.nil_append] at h
  grind -linarith

@[grind →] theorem stands_taggedTemplate (hr : rules.Sound) (h : Yields (taggedTemplate rules base types) scope c t c')
    (hc : Stands text stack (held + base.literals + Tree.literalsOf types) c) :
    Stands text stack (held + t.literals) c' := by
  have hrules := hr.reads
  rw [taggedTemplate] at h
  simp only [yields_bind, yields_finish, List.cons_append] at h
  grind -linarith

theorem yields_endsInstantiation (h : Yields endsInstantiation scope c b c') : c' = c := by
  rw [endsInstantiation] at h
  simp only [↓yields_looks, yields_ite, yields_pure] at h
  grind -linarith

theorem isLiteral_stepKind {kind : Kind} (hk : kind.isLiteral = false) : (stepKind base kind).isLiteral = false := by
  rw [stepKind]
  split
  · rfl
  · exact hk

@[grind →] theorem stands_typedStep {noCall : Bool} (hr : rules.Sound)
    (h : Yields (typedStep rules base noCall) scope c t c') (hc : Stands text stack (held + base.literals) c) :
    Stands text stack (held + t.literals) c' := by
  have hrules := hr.reads
  have hcall := @isLiteral_stepKind base .call rfl
  rw [typedStep] at h
  simp only [↓yields_looks, yields_bind, yields_ite, yields_finish] at h
  obtain ⟨types, c₁, htypes, h⟩ := h
  have hstands := reads_expressionTypes hr htypes hc
  clear htypes hc
  split at h
  · grind -linarith
  split at h
  · refine stands_taggedTemplate hr h ?_
    grind -linarith
  · grind -linarith [yields_endsInstantiation]

theorem stands_plainStep? {noCall : Bool} {t? : Option Tree} (hr : rules.Sound)
    (h : Yields (plainStep? rules base noCall) scope c t? c') (hc : Stands text stack (held + base.literals) c) :
    Stands text stack (held + (t?.getD base).literals) c' := by
  have hrules := hr.reads
  have hindex := @isLiteral_stepKind base .index rfl
  have hcall := @isLiteral_stepKind base .call rfl
  have hmember := @isLiteral_stepKind base .member rfl
  rw [plainStep?] at h
  simp only [↓yields_looks, yields_bind, yields_ite, yields_bracketed, yields_pure, yields_finish] at h
  split at h
  · grind -linarith
  obtain ⟨isIndex, c₁, hsquare, h⟩ := h
  split at h
  · grind -linarith
  have hstands : Stands text stack (held + base.literals) c₁ := by
    grind -linarith
  clear hsquare hc
  split at h
  · grind -linarith
  obtain ⟨isMember, c₂, hdot, h⟩ := h
  split at h
  · grind -linarith
  have hbehind : Stands text stack (held + base.literals) c₂ := by
    grind -linarith
  clear hdot hstands
  obtain ⟨_, h⟩ := h
  split at h
  · obtain ⟨e, c₃, htagged, rfl, rfl⟩ := h
    refine stands_taggedTemplate hr htagged ?_
    simpa using hbehind
  · obtain ⟨rfl, rfl⟩ := h
    exact hbehind

/-- What a step gives, or the base where there is none, holds the literals of the base. -/
theorem stands_subscript? {noCall : Bool} {t? : Option Tree} (hr : rules.Sound)
    (h : Yields (subscript? rules base noCall) scope c t? c') (hc : Stands text stack (held + base.literals) c) :
    Stands text stack (held + (t?.getD base).literals) c' := by
  have hnonNull := @isLiteral_stepKind base .nonNull rfl
  rw [subscript?] at h
  simp only [↓yields_looks, yields_bind, yields_ite, yields_pure, yields_finish] at h
  split at h
  · split at h
    · grind -linarith
    · split at h
      · obtain ⟨step?, c₁, hattempt, h⟩ := h
        rcases yields_attempt hattempt with ⟨e, scope', rfl, hstep⟩ | ⟨rfl, rfl⟩
        · obtain ⟨rfl, rfl⟩ := yields_pure.mp h
          exact stands_typedStep hr hstep hc
        · exact stands_plainStep? hr h hc
      · exact stands_plainStep? hr h hc
  · exact stands_plainStep? hr h hc

theorem stands_subscripts {noCall : Bool} (hr : rules.Sound) (h : Yields (subscripts rules base noCall) scope c t c')
    (hc : Stands text stack (held + base.literals) c) : Stands text stack (held + t.literals) c' := by
  rw [subscripts] at h
  refine stands_repeatFrom h Tree.literals Tree.literals (fun e c r c' text stack held h hc => ?_) hc
  obtain ⟨step?, c₁, hstep, h⟩ := yields_bind.mp h
  have hstands := stands_subscript? hr hstep hc
  cases step? with
  | some e =>
      obtain ⟨rfl, rfl⟩ := yields_pure.mp h
      exact hstands
  | none =>
      obtain ⟨rfl, rfl⟩ := yields_pure.mp h
      exact hstands

/-! ## In front of a base -/

/-- Steps behind a base without literals. -/
theorem Rules.Sound.subscripts_bare (hr : rules.Sound) : ∀ base noCall ⦃scope c t c' text stack held⦄,
    Yields (rules (.subscripts base noCall)) scope c t c' → base.literals = 0 →
      Stands text stack held c → Stands text stack (held + t.literals) c' := by
  intro base noCall scope c t c' text stack held h hbase hc
  refine hr.subscripts base noCall h ?_
  rwa [hbase, add_zero]

/-- The literals of what an optional rule gives. -/
def Tree.literals? : Option Tree → Multiset Literal
  | some t => t.literals
  | none => 0

@[simp] theorem Tree.literals?_some : Tree.literals? (some t) = t.literals := rfl

@[simp] theorem Tree.literals?_none : Tree.literals? none = 0 := rfl

@[simp] theorem Tree.literalsOf_toList (t? : Option Tree) : Tree.literalsOf t?.toList = Tree.literals? t? := by
  cases t? with
  | some t => rw [Option.toList_some, Tree.literalsOf_cons, Tree.literalsOf_nil, add_zero, Tree.literals?_some]
  | none => rfl

/-- What a reading that is tried gives, if it gives something. -/
theorem stands_attempt {p : Parse Tree} {t? : Option Tree} (hp : Reads p Tree.literals)
    (h : Yields (attempt p) scope c t? c') (hc : Stands text stack held c) :
    Stands text stack (held + Tree.literals? t?) c' := by
  rcases yields_attempt h with ⟨t, scope', rfl, ht⟩ | ⟨rfl, rfl⟩
  · exact hp ht hc
  · simpa using hc

/-- Type arguments that are believed in front of a bracket only. -/
theorem reads_typesInFrontOf {types : Parse Tree} (htypes : Reads types Tree.literals) :
    Reads (do let t ← types; require (← atMark m); return t) Tree.literals := by
  intro scope c t c' text stack held h hc
  simp only [↓yields_looks, yields_bind, yields_pure] at h
  obtain ⟨t, c₁, ht, _, rfl, rfl⟩ := h
  exact htypes ht hc

/-- A call is put together from its base, the type arguments and the arguments. -/
theorem stands_call {args : Tree} {types? : Option Tree} {k : Kind} {sp : Span} {name : String} {noCall : Bool}
    (hr : rules.Sound) (hk : k.isLiteral = false) (hargs : Yields (rules .arguments) scope c args c')
    {c'' : Cursor}
    (h : Yields (rules (.subscripts (.node k sp name (base :: (types?.toList ++ [args]))) noCall)) scope c' t c'')
    (hc : Stands text stack (held + base.literals + Tree.literals? types?) c) :
    Stands text stack (held + t.literals) c'' := by
  refine hr.subscripts _ noCall h ?_
  have hstands := hr.rule .arguments rfl hargs hc
  rw [Tree.literals_node hk, Tree.literalsOf_cons, Tree.literalsOf_append, Tree.literalsOf_toList,
    Tree.literalsOf_cons, Tree.literalsOf_nil, add_zero]
  simpa [add_assoc] using hstands

@[grind →] theorem reads_newExpression (hr : rules.Sound) : Reads (newExpression rules start) Tree.literals := by
  intro scope c t c' text stack held h hc
  have hrules := hr.reads
  have hbare := hr.subscripts_bare
  rw [newExpression] at h
  simp only [pure_bind, ↓yields_looks, yields_bind, yields_ite, yields_finish, List.cons_append] at h
  obtain ⟨isMeta, c₁, hdot, h⟩ := h
  split at h
  · obtain ⟨_, c₂, htarget, _, c₃, hfault, h⟩ := h
    have hstands : Stands text stack held c₃ := by
      grind -linarith
    clear hdot htarget hfault hc
    grind -linarith
  obtain ⟨callee, c₂, hcallee, _, h⟩ := h
  have hstands : Stands text stack (held + callee.literals) c₂ := by
    grind -linarith
  clear hdot hcallee hc
  split at h
  · obtain ⟨types?, c₃, hattempt, h⟩ := h
    have htyped := stands_attempt (reads_typesInFrontOf (hr.rule .typeArguments rfl)) hattempt hstands
    clear hattempt hstands
    split at h
    · obtain ⟨args, c₄, hargs, _, _, ⟨rfl, rfl⟩, h⟩ := h
      exact stands_call hr rfl hargs h htyped
    · obtain ⟨rfl, rfl⟩ := h
      rw [Tree.literals_node rfl, Tree.literalsOf_cons, Tree.literalsOf_nil, add_zero]
      exact htyped.drop
  · split at h
    · obtain ⟨args, c₄, hargs, _, _, ⟨rfl, rfl⟩, h⟩ := h
      exact stands_call hr rfl hargs h (by simpa using hstands)
    · grind -linarith

@[grind →] theorem reads_importExpression {noCall : Bool} (hr : rules.Sound) :
    Reads (importExpression rules start noCall) Tree.literals := by
  intro scope c t c' text stack held h hc
  have hbare := hr.subscripts_bare
  rw [importExpression] at h
  simp only [↓yields_looks, yields_bind, yields_ite, yields_finish] at h
  grind -linarith

@[grind →] theorem reads_memberOrNew (hr : rules.Sound) : Reads (memberOrNew rules) Tree.literals := by
  intro scope c t c' text stack held h hc
  have hbare := hr.subscripts_bare
  have hsubscripts := hr.subscripts
  rw [memberOrNew] at h
  simp only [↓yields_looks, yields_bind, yields_ite, yields_finish] at h
  grind -linarith

@[grind →] theorem yields_atElement (h : Yields atElement scope c b c') : c' = c := by
  rw [atElement] at h
  simp only [↓yields_looks, yields_ite, yields_pure] at h
  grind -linarith

@[grind →] theorem reads_leftSide (hr : rules.Sound) : Reads (leftSide rules) Tree.literals := by
  intro scope c t c' text stack held h hc
  have hrules := hr.reads
  have hbare := hr.subscripts_bare
  have hclosed := hr.element
  have hcall := fun base => @isLiteral_stepKind base .call rfl
  rw [leftSide] at h
  simp only [pure_bind, ↓yields_looks, yields_bind, yields_ite, yields_pure, yields_finish, List.cons_append] at h
  obtain ⟨isElement, c₁, hlook, h⟩ := h
  obtain rfl := yields_atElement hlook
  clear hlook
  split at h
  · grind -linarith
  split at h
  · grind -linarith
  split at h
  · grind -linarith
  obtain ⟨callee, c₂, hcallee, h⟩ := h
  have hstands := hr.rule .memberOrNew rfl hcallee hc
  clear hcallee hc
  split at h
  · grind -linarith
  split at h
  · obtain ⟨types?, c₃, hattempt, h⟩ := h
    have htyped := stands_attempt (reads_typesInFrontOf (reads_expressionTypes hr)) hattempt hstands
    clear hattempt hstands
    split at h
    · obtain ⟨args, c₄, hargs, _, _, ⟨rfl, rfl⟩, h⟩ := h
      exact stands_call hr (isLiteral_stepKind rfl) hargs h htyped
    · obtain ⟨rfl, rfl⟩ := h
      exact htyped.drop
  · split at h
    · obtain ⟨args, c₃, hargs, _, _, ⟨rfl, rfl⟩, h⟩ := h
      exact stands_call hr (isLiteral_stepKind rfl) hargs h (by simpa using hstands)
    · grind -linarith

/-! ## Operators -/

@[grind →] theorem reads_awaitExpression (hr : rules.Sound) : Reads (awaitExpression rules start) Tree.literals := by
  intro scope c t c' text stack held h hc
  have hrules := hr.reads
  rw [awaitExpression] at h
  simp only [↓yields_looks, yields_bind, yields_finish] at h
  grind -linarith

@[grind →] theorem reads_typeAssertion (hr : rules.Sound) : Reads (typeAssertion rules start) Tree.literals := by
  intro scope c t c' text stack held h hc
  have hrules := hr.reads
  rw [typeAssertion] at h
  simp only [↓yields_looks, yields_bind, yields_ite, yields_finish] at h
  grind -linarith [→ yields_advance]

theorem isPlain_of_marks {tok : Token} {ms : List String} (h : ms.any (isMark tok) = true)
    (hms : ∀ m ∈ ms, isBracketMark m = false) : tok.isPlain = true := by
  obtain ⟨m, hm, hmark⟩ := List.any_eq_true.mp h
  exact isPlain_of_isMark hmark (hms m hm)

theorem isPlain_of_unaryOperator? {tok : Token} {op : String} (h : unaryOperator? tok = some op) :
    tok.isPlain = true := by
  rw [unaryOperator?, Option.or_eq_some_iff] at h
  rcases h with hword | ⟨_, hmark⟩
  · exact isPlain_of_isName (isName_of_isWord (List.find?_some hword))
  · have hmarks : ["+", "-", "~", "!"].any (isMark tok) = true :=
      List.any_eq_true.mpr ⟨op, List.mem_of_find?_eq_some hmark, List.find?_some hmark⟩
    exact isPlain_of_marks hmarks (by decide)

@[grind →] theorem token_checkStore {u : Unit} {target : Tree} (h : Yields (checkStore target b) scope c u c') :
    c'.token = c.token := by
  rw [checkStore] at h
  simp only [↓yields_looks, yields_ite] at h
  grind -linarith

@[grind →] theorem reads_unary (hr : rules.Sound) : Reads (unary rules) Tree.literals := by
  intro scope c t c' text stack held h hc
  have hrules := hr.reads
  have hupdates : ∀ tok, ["++", "--"].any (isMark tok) = true → tok.isPlain = true :=
    fun tok hany => isPlain_of_marks hany (by decide)
  rw [unary] at h
  simp only [↓yields_looks, yields_bind, yields_ite, yields_finish] at h
  obtain ⟨asserts, c₁, hangle, h⟩ := h
  have hstands : Stands text stack held c₁ := by
    grind -linarith
  clear hangle hc
  split at h
  · exact reads_typeAssertion hr h hstands
  split at h
  · grind -linarith
  split at h
  · rename_i op hop
    have hplain := isPlain_of_unaryOperator? hop
    simp only [↓yields_looks, yields_bind, yields_ite, yields_finish] at h
    grind -linarith
  · simp only [↓yields_looks, yields_bind, yields_ite, yields_pure, yields_finish] at h
    obtain ⟨awaits, c₂, hawait, h⟩ := h
    split at h
    · grind -linarith
    obtain ⟨e, c₃, he, h⟩ := h
    have hbehind : Stands text stack (held + e.literals) c₃ := by
      grind -linarith
    clear he hawait hstands
    grind -linarith

@[grind →] theorem stands_typedOperand (hr : rules.Sound) (h : Yields (typedOperand rules left) scope c t c')
    (hc : Stands text stack (held + left.literals) c) : Stands text stack (held + t.literals) c' := by
  rw [typedOperand] at h
  simp only [yields_bind, yields_ite, yields_finish] at h
  grind -linarith

theorem stands_operators {least : Nat} (hr : rules.Sound) (h : Yields (operators rules left least) scope c t c')
    (hc : Stands text stack (held + left.literals) c) : Stands text stack (held + t.literals) c' := by
  rw [operators] at h
  refine stands_repeatFrom h Tree.literals Tree.literals (fun left c r c' text stack held h hc => ?_) hc
  simp only [↓yields_looks, yields_bind, yields_ite, yields_pure] at h
  split at h
  · grind -linarith
  split at h
  · obtain ⟨rfl, rfl⟩ := yields_pure.mp h
    exact hc
  · rename_i op level hop
    simp only [↓yields_looks, yields_bind, yields_ite, yields_pure, yields_finish] at h
    split at h
    · grind -linarith
    obtain ⟨_, c₁, hskip, _, operand, c₂, hoperand, right, c₃, hright, _, c₄, hfault, _, _, ⟨rfl, rfl⟩, rfl, rfl⟩ := h
    have hstands := stands_skipOperator hskip (Token.shows_of_operatorAt hop) hc
    have hstands' := hr.operators _ _ hright (hr.rule .unary rfl hoperand hstands)
    show Stands text stack (held + Tree.literals _) _
    rw [Tree.literals_node rfl, Tree.literalsOf_cons, Tree.literalsOf_cons, Tree.literalsOf_nil, add_zero, ← add_assoc]
    exact stands_faultIf hfault hstands'

@[grind →] theorem reads_conditional (hr : rules.Sound) : Reads (conditional rules) Tree.literals := by
  intro scope c t c' text stack held h hc
  have hrules := hr.reads
  rw [conditional] at h
  simp only [↓yields_looks, yields_bind, yields_ite, yields_pure, yields_finish] at h
  obtain ⟨first, c₁, hfirst, test, c₂, htest, h⟩ := h
  have hstands := hr.operators _ _ htest (hr.rule .unary rfl hfirst hc)
  clear hfirst htest hc
  grind -linarith

/-! ## Arrow functions -/

@[grind →] theorem reads_arrowHead {withResult : Bool} (hr : rules.Sound) :
    Reads (arrowHead rules withResult) Tree.literalsOf := by
  intro scope c ts c' text stack held h hc
  have hresult := @reads_returnType _ ":" hr rfl
  rw [arrowHead] at h
  simp only [↓yields_looks, yields_bind, yields_ite, yields_bracketed, yields_pure] at h
  obtain ⟨_, c₁, hopen, params, c₂, hparams, _, c₃, hclose, _, c₄, hfault, h⟩ := h
  have hinside := hr.rule .parameters rfl hparams (open_paren hopen hc)
  have hstands := stands_faultIf hfault (close_paren hclose hinside)
  clear hopen hparams hclose hfault hinside hc
  split at h
  · grind -linarith
  · grind -linarith

@[grind →] theorem reads_arrowBody {isAsync : Bool} (hr : rules.Sound) :
    Reads (arrowBody rules isAsync) Tree.literals := by
  intro scope c t c' text stack held h hc
  have hrules := hr.reads
  rw [arrowBody] at h
  simp only [↓yields_looks, yields_ite, yields_within] at h
  grind -linarith

@[grind →] theorem yields_atArrow {isAsync : Bool} (h : Yields (atArrow rules isAsync) scope c b c') : c' = c := by
  rw [atArrow] at h
  simp only [↓yields_looks, yields_bind, yields_ite, yields_pure] at h
  grind -linarith

@[grind →] theorem stands_bracketArrow {isAsync : Bool} (hr : rules.Sound)
    (h : Yields (bracketArrow rules start isAsync types) scope c t c')
    (hc : Stands text stack (held + Tree.literalsOf types) c) : Stands text stack (held + t.literals) c' := by
  rw [bracketArrow] at h
  simp only [↓yields_looks, yields_bind, yields_ite, yields_finish, List.append_assoc] at h
  obtain ⟨head, c₁, hhead, _, c₂, harrow, body, c₃, hbody, h⟩ := h
  have hstands := reads_arrowBody hr hbody (stands_expectMark harrow rfl (reads_arrowHead hr hhead hc))
  clear hhead harrow hbody hc
  grind -linarith

@[grind →] theorem reads_nameArrow {isAsync : Bool} (hr : rules.Sound) :
    Reads (nameArrow rules start isAsync) Tree.literals := by
  intro scope c t c' text stack held h hc
  rw [nameArrow] at h
  simp only [↓yields_looks, yields_bind, yields_finish] at h
  grind -linarith

@[grind →] theorem reads_untypedArrow {isAsync : Bool} (hr : rules.Sound) :
    Reads (bracketArrow rules start isAsync []) Tree.literals :=
  fun _ _ _ _ _ _ _ h hc => stands_bracketArrow hr h (by simpa using hc)

theorem reads_typedArrow {isAsync : Bool} (hr : rules.Sound) :
    Reads (do let types ← rules (.typeParameters false true); bracketArrow rules start isAsync [types])
      Tree.literals := by
  intro scope c t c' text stack held h hc
  obtain ⟨types, c₁, htypes, h⟩ := yields_bind.mp h
  refine stands_bracketArrow hr h ?_
  simpa using hr.rule _ rfl htypes hc

theorem stands_some {t? : Option Tree} (h : t? = some t) (hc : Stands text stack (held + t.literals) c) :
    Stands text stack (held + Tree.literals? t?) c := by
  subst h
  exact hc

theorem stands_none {t? : Option Tree} (h : t? = none ∧ c' = c) (hc : Stands text stack held c) :
    Stands text stack (held + Tree.literals? t?) c' := by
  obtain ⟨rfl, rfl⟩ := h
  simpa using hc

theorem reads_asyncArrow? (hr : rules.Sound) : Reads (asyncArrow? rules) Tree.literals? := by
  intro scope c t? c' text stack held h hc
  rw [asyncArrow?] at h
  simp only [↓yields_looks, yields_bind, yields_ite, yields_pure] at h
  split at h
  · exact stands_none h hc
  rename_i hasync
  have hplain : c.token.isPlain = true := by
    grind -linarith
  have hbehind : ∀ ⦃u c₁⦄, Yields advance scope c u c₁ → Stands text stack held c₁ :=
    fun u c₁ hmove => stands_plain hmove hplain hc
  split at h
  · obtain ⟨_, c₁, hmove, t, c₂, ht, rfl, rfl⟩ := h
    exact stands_some rfl (reads_nameArrow hr ht (hbehind hmove))
  obtain ⟨_, c₁, hname, h⟩ := h
  obtain rfl := yields_ahead hname
  split at h
  · obtain ⟨_, c₂, hmove, t, c₃, ht, rfl, rfl⟩ := h
    exact stands_some rfl (reads_nameArrow hr ht (hbehind hmove))
  obtain ⟨_, c₂, hparen, h⟩ := h
  obtain rfl := yields_ahead hparen
  split at h
  · obtain ⟨_, c₃, hmove, t, c₄, ht, rfl, rfl⟩ := h
    exact stands_some rfl (reads_untypedArrow hr ht (hbehind hmove))
  split at h
  · rcases yields_attempt h with ⟨t, scope', rfl, ht⟩ | ⟨rfl, rfl⟩
    · obtain ⟨_, c₃, hmove, ht⟩ := yields_bind.mp ht
      exact stands_some rfl (reads_typedArrow hr ht (stands_plain hmove hplain hc))
    · exact stands_none ⟨rfl, rfl⟩ hc
  · exact stands_none h hc

/-- An arrow function is read where one is seen, and nothing elsewhere. -/
theorem reads_seenArrow (hr : rules.Sound) :
    Reads (do
      if ← atArrow rules false then return some (← bracketArrow rules start false [])
      return none) Tree.literals? := by
  intro scope c t? c' text stack held h hc
  simp only [yields_bind, yields_ite, yields_pure] at h
  obtain ⟨isArrow, c₁, hlook, h⟩ := h
  obtain rfl := yields_atArrow hlook
  split at h
  · obtain ⟨t, c₂, ht, rfl, rfl⟩ := h
    exact stands_some rfl (reads_untypedArrow hr ht hc)
  · exact stands_none h hc

theorem reads_arrow? (hr : rules.Sound) : Reads (arrow? rules) Tree.literals? := by
  intro scope c t? c' text stack held h hc
  rw [arrow?] at h
  simp only [↓yields_looks] at h
  obtain ⟨async?, c₁, hasync, h⟩ := yields_bind.mp h
  have hstands := reads_asyncArrow? hr hasync hc
  cases async? with
  | some t =>
      obtain ⟨rfl, rfl⟩ := yields_pure.mp h
      exact hstands
  | none =>
      rw [Tree.literals?_none, add_zero] at hstands
      simp only [↓yields_looks, yields_if] at h
      rcases h with ⟨_, ⟨_, h⟩ | ⟨_, h⟩⟩ | ⟨_, h⟩
      · obtain ⟨t, c₂, ht, h⟩ := yields_bind.mp h
        obtain ⟨rfl, rfl⟩ := yields_pure.mp h
        exact stands_some rfl (reads_nameArrow hr ht hstands)
      · exact reads_seenArrow hr h hstands
      · exact reads_seenArrow hr h hstands

@[grind →] theorem reads_genericArrow (hr : rules.Sound) : Reads (genericArrow rules) Tree.literals := by
  intro scope c t c' text stack held h hc
  rw [genericArrow] at h
  simp only [↓yields_looks] at h
  exact reads_typedArrow hr h hc

/-! ## Assignments -/

@[grind →] theorem reads_yieldExpression (hr : rules.Sound) : Reads (yieldExpression rules start) Tree.literals := by
  intro scope c t c' text stack held h hc
  have hrules := hr.reads
  rw [yieldExpression] at h
  simp only [↓yields_looks, yields_bind, yields_ite, yields_finish] at h
  grind -linarith

theorem token_storeTarget (h : Yields (storeTarget left) scope c t c') : c'.token = c.token := by
  rw [storeTarget] at h
  simp only [↓yields_looks, yields_bind, yields_ite, yields_pure] at h
  grind -linarith

theorem stands_assignmentTail (hr : rules.Sound) (h : Yields (assignmentTail rules left) scope c t c')
    (hc : Stands text stack (held + left.literals) c) : Stands text stack (held + t.literals) c' := by
  rw [assignmentTail] at h
  simp only [↓yields_looks] at h
  split at h
  · obtain ⟨rfl, rfl⟩ := yields_pure.mp h
    exact hc
  · rename_i sign hsign
    have hrules := hr.reads
    have hshows := Token.shows_of_assignmentAt hsign
    simp only [↓yields_looks, yields_bind, yields_ite, yields_pure, yields_finish] at h
    split at h
    · obtain ⟨target, c₁, htarget, _, c₂, hskip, h⟩ := h
      have hstands := stands_storeTarget htarget hc
      rw [← token_storeTarget htarget] at hshows
      replace hstands := stands_skipOperator hskip hshows hstands
      clear htarget hskip hc
      grind -linarith
    · obtain ⟨_, c₁, hfault, _, _, _, ⟨rfl, rfl⟩, _, c₂, hskip, h⟩ := h
      have hstands := stands_faultIf hfault hc
      rw [← token_faultIf hfault] at hshows
      replace hstands := stands_skipOperator hskip hshows hstands
      clear hfault hskip hc
      grind -linarith

@[grind →] theorem reads_plainAssignment (hr : rules.Sound) : Reads (plainAssignment rules) Tree.literals := by
  intro scope c t c' text stack held h hc
  rw [plainAssignment] at h
  simp only [↓yields_looks, yields_bind, yields_ite] at h
  obtain ⟨yields, c₁, hyield, h⟩ := h
  have hstands : Stands text stack held c₁ := by
    grind -linarith
  clear hyield hc
  split at h
  · exact reads_yieldExpression hr h hstands
  obtain ⟨arrow, c₂, harrow, h⟩ := h
  have hbehind := reads_arrow? hr harrow hstands
  clear harrow hstands
  cases arrow with
  | some t =>
      obtain ⟨rfl, rfl⟩ := yields_pure.mp h
      simpa using hbehind
  | none =>
      rw [Tree.literals?_none, add_zero] at hbehind
      obtain ⟨left, c₃, hleft, h⟩ := yields_bind.mp h
      have hfront := reads_conditional hr hleft hbehind
      rcases yields_if.mp h with ⟨_, h⟩ | ⟨_, h⟩
      · obtain ⟨rfl, rfl⟩ := yields_pure.mp h
        exact hfront
      · exact stands_assignmentTail hr h hfront

/-- Behind an arrow function that is tried, the assignment starts anew where there is none. -/
theorem reads_orPlain {faulty : Tree → Bool} (hr : rules.Sound) :
    Reads (do
      if let some t ← attempt (genericArrow rules) then
        let guarded := (← read).features.guarded
        faultIf (guarded && faulty t)
        return t
      plainAssignment rules) Tree.literals := by
  intro scope c t c' text stack held h hc
  obtain ⟨arrow, c₁, harrow, h⟩ := yields_bind.mp h
  have hstands := stands_attempt (reads_genericArrow hr) harrow hc
  clear harrow hc
  cases arrow with
  | some t =>
      simp only [↓yields_looks, yields_bind, yields_pure] at h
      obtain ⟨_, c₂, hfault, rfl, rfl⟩ := h
      exact stands_faultIf hfault (by simpa using hstands)
  | none => exact reads_plainAssignment hr h (by simpa using hstands)

theorem reads_assignment (hr : rules.Sound) : Reads (assignment rules) Tree.literals := by
  intro scope c t c' text stack held h hc
  rw [assignment] at h
  simp only [↓yields_looks, yields_if] at h
  rcases h with ⟨_, h⟩ | ⟨_, ⟨_, h⟩ | ⟨_, ⟨_, h⟩ | ⟨_, h⟩⟩⟩
  · exact reads_plainAssignment hr h hc
  · obtain ⟨plain, c₁, hplain, h⟩ := yields_bind.mp h
    have hstands := stands_attempt (reads_plainAssignment hr) hplain hc
    cases plain with
    | some t =>
        obtain ⟨rfl, rfl⟩ := yields_pure.mp h
        simpa using hstands
    | none =>
        rw [Tree.literals?_none, add_zero] at hstands
        rcases yields_if.mp h with ⟨_, h⟩ | ⟨_, h⟩
        · exact reads_orPlain hr h hstands
        · exact reads_plainAssignment hr h hstands
  · exact reads_orPlain hr h hc
  · exact reads_plainAssignment hr h hc

theorem reads_expression (hr : rules.Sound) : Reads (expression rules) Tree.literals := by
  intro scope c t c' text stack held h hc
  have hrules := hr.reads
  rw [expression] at h
  simp only [↓yields_looks, yields_bind, yields_ite, yields_pure, yields_finish] at h
  obtain ⟨first, c₁, hfirst, h⟩ := h
  have hstands := hr.rule .assignment rfl hfirst hc
  clear hfirst hc
  split at h
  · grind -linarith
  obtain ⟨items, c₂, hitems, rfl, rfl⟩ := h
  rw [Tree.literals_node rfl]
  refine stands_repeatFrom hitems Tree.literalsOf Tree.literalsOf (fun done c r c' text stack held h hc => ?_) ?_
  · simp only [yields_bind, yields_ite, yields_pure] at h
    grind -linarith
  · simpa using hstands

end Script
end StoryDocs
