import StoryDocs.Proofs.Script.Atoms.Declarations
import StoryDocs.Script.Grammar.Statement

/-!
# Statements read

The rules for statements leave the brackets open that are open, and the literals of what they build are
closed.
-/

namespace StoryDocs
namespace Script

open Grammar

variable {rules : Rules} {scope : Scope} {c c' : Cursor} {text : List Char} {stack : List (Bracket × Nat)}
  {held : Multiset Literal} {b waits : Bool} {t left vars : Tree} {ts : List Tree} {start : Nat} {label : String}

/-! ## Blocks and heads -/

theorem reads_block (hr : rules.Sound) : Reads (block rules) Tree.literals := by
  intro scope c t c' text stack held h hc
  have hall := @Reads.many (atMark "\x7d") _ (by simp) (hr.rule (.statement true) rfl)
  rw [block] at h
  simp only [↓yields_looks, yields_bind, yields_bracketed, yields_finish] at h
  grind -linarith

@[grind →] theorem reads_headExpression (hr : rules.Sound) : Reads (headExpression rules) Tree.literals := by
  intro scope c t c' text stack held h hc
  have hrules := hr.reads
  rw [headExpression] at h
  simp only [yields_bind, yields_bracketed, yields_pure] at h
  grind -linarith

@[grind →] theorem reads_loopBody (hr : rules.Sound) : Reads (loopBody rules) Tree.literals :=
  fun _ _ _ _ _ _ _ h hc => hr.rule (.statement false) rfl (yields_within.mp h) hc

@[grind →] theorem reads_jump {kind : Kind} (hk : kind.isLiteral = false) : Reads (jump start kind) Tree.literals := by
  intro scope c t c' text stack held h hc
  have hleaf : ∀ sp name, (Tree.node kind sp name []).literals = 0 := fun sp name => Tree.literals_node hk sp name []
  rw [jump] at h
  simp only [↓yields_looks, yields_bind, yields_ite, yields_finish] at h
  generalize (if kind == Kind.breakStatement then scope.canBreak else scope.canContinue) = allowed at h
  obtain ⟨ends, c₁, hends, h⟩ := h
  split at h
  · grind -linarith
  · obtain ⟨label, c₂, hlabel, _, c₃, hsemicolon, _, c₄, hfault, rfl, rfl⟩ := h
    have hstands := reads_reference hlabel (stands_eatSemicolon hends hc)
    rw [hleaf, add_zero]
    exact stands_faultIf hfault (stands_expectSemicolon hsemicolon hstands.drop)

@[grind →] theorem reads_ifStatement (hr : rules.Sound) : Reads (ifStatement rules start) Tree.literals := by
  intro scope c t c' text stack held h hc
  have hrules := hr.reads
  rw [ifStatement] at h
  simp only [pure_bind, yields_bind, yields_ite, yields_finish] at h
  grind -linarith

/-! ## Loops -/

@[grind →] theorem reads_countingHead (hr : rules.Sound) : Reads (countingHead rules) Tree.literalsOf := by
  intro scope c t c' text stack held h hc
  have hrules := hr.reads
  rw [countingHead] at h
  simp only [pure_bind, ↓yields_looks, yields_bind, yields_ite, yields_bracketed, yields_pure] at h
  grind -linarith

/-- The head of a loop is read: the loop is no literal, and the literals of the head are closed. -/
def StandsBehindHead (text : List Char) (stack : List (Bracket × Nat)) (held : Multiset Literal)
    (head : Kind × List Tree) (c : Cursor) : Prop :=
  head.1.isLiteral = false ∧ Stands text stack (held + Tree.literalsOf head.2) c

theorem stands_overHead {head : Kind × List Tree} (hr : rules.Sound)
    (h : Yields (overHead rules left) scope c head c') (hc : Stands text stack (held + left.literals) c) :
    StandsBehindHead text stack held head c' := by
  have hrules := hr.reads
  rw [overHead] at h
  simp only [yields_bind, yields_ite, yields_bracketed, yields_pure] at h
  obtain ⟨isOf, c₁, hof, h⟩ := h
  split at h
  · obtain ⟨right, c₂, hright, rfl, rfl⟩ := h
    refine ⟨rfl, ?_⟩
    grind -linarith
  · obtain ⟨_, c₂, hin, right, c₃, hright, rfl, rfl⟩ := h
    refine ⟨rfl, ?_⟩
    grind -linarith

theorem stands_declaringHead {head : Kind × List Tree} (hr : rules.Sound)
    (h : Yields (declaringHead rules vars) scope c head c') (hc : Stands text stack (held + vars.literals) c) :
    StandsBehindHead text stack held head c' := by
  rw [declaringHead] at h
  simp only [↓yields_looks, yields_bind, yields_ite, yields_pure] at h
  split at h
  · obtain ⟨_, c₁, hfault, h⟩ := h
    exact stands_overHead hr h (stands_faultIf hfault hc)
  · obtain ⟨_, c₁, hsemicolon, rest, c₂, hrest, rfl, rfl⟩ := h
    refine ⟨rfl, ?_⟩
    grind -linarith

@[grind →] theorem yields_atAsyncOf (h : Yields atAsyncOf scope c b c') : c' = c :=
  yields_ahead h

theorem stands_forHead {head : Kind × List Tree} (hr : rules.Sound)
    (h : Yields (forHead rules waits) scope c head c') (hc : Stands text stack held c) :
    StandsBehindHead text stack held head c' := by
  have hrules := hr.reads
  rw [forHead] at h
  simp only [↓yields_looks, yields_bind, yields_ite, yields_within, yields_pure, yields_finish] at h
  obtain ⟨declares, c₁, hlet, h⟩ := h
  obtain rfl := yields_atLet hlet
  clear hlet
  -- A head that declares, with an ordinary keyword or with one of disposal; else an expression or nothing.
  split at h
  · obtain ⟨kind, c₂, hkind, all, c₃, hall, _, _, ⟨rfl, rfl⟩, h⟩ := h
    have hstands := reads_declarators hr hall (reads_anyName hkind hc)
    rw [literals_anyName hkind, add_zero] at hstands
    refine stands_declaringHead hr h ?_
    rwa [Tree.literals_node rfl]
  obtain ⟨disposes, c₂, husing, iterates, c₃, hover, h⟩ := h
  obtain rfl := yields_atUsing husing
  obtain rfl := yields_ahead hover
  clear husing hover
  split at h
  · obtain ⟨vars, c₄, hvars, h⟩ := h
    exact stands_declaringHead hr h (reads_usingVariables hr hvars hc)
  obtain ⟨counts, c₄, hcounts, h⟩ := h
  have hstands : Stands text stack held c₄ := by
    grind -linarith
  clear hcounts hc
  split at h
  · obtain ⟨rest, c₅, hrest, rfl, rfl⟩ := h
    exact ⟨rfl, reads_countingHead hr hrest hstands⟩
  obtain ⟨isOf, c₅, hof, _, c₆, hfault, init, c₇, hinit, h⟩ := h
  have hbehind : Stands text stack (held + init.literals) c₇ := by
    grind -linarith
  clear hof hfault hinit hstands
  split at h
  · obtain ⟨target, c₈, htarget, _, c₉, hfault, h⟩ := h
    exact stands_overHead hr h (stands_faultIf hfault (stands_storeTarget htarget hbehind))
  · obtain ⟨_, c₈, hsemicolon, _, c₉, hfault, rest, c₁₀, hrest, rfl, rfl⟩ := h
    refine ⟨rfl, ?_⟩
    grind -linarith

@[grind →] theorem reads_forStatement (hr : rules.Sound) : Reads (forStatement rules start) Tree.literals := by
  intro scope c t c' text stack held h hc
  rw [forStatement] at h
  simp only [↓yields_looks, yields_bind, yields_finish] at h
  obtain ⟨waits, c₁, hawait, _, c₂, hopen, head, c₃, hhead, _, c₄, hclose, body, c₅, hbody, _, rfl, rfl⟩ := h
  have hfront : Stands text stack held c₁ := by
    grind -linarith
  obtain ⟨hkind, hinside⟩ := stands_forHead hr hhead (open_paren hopen hfront)
  have hstands := reads_loopBody hr hbody (close_paren hclose hinside)
  rw [Tree.literals_node hkind, Tree.literalsOf_append, Tree.literalsOf_cons, Tree.literalsOf_nil, add_zero,
    ← add_assoc]
  exact hstands

@[grind →] theorem reads_whileStatement (hr : rules.Sound) : Reads (whileStatement rules start) Tree.literals := by
  intro scope c t c' text stack held h hc
  rw [whileStatement] at h
  simp only [yields_bind, yields_finish] at h
  grind -linarith

@[grind →] theorem reads_doStatement (hr : rules.Sound) : Reads (doStatement rules start) Tree.literals := by
  intro scope c t c' text stack held h hc
  rw [doStatement] at h
  simp only [yields_bind, yields_finish] at h
  grind -linarith

/-! ## Other statements with keywords -/

@[grind →] theorem reads_switchCase (hr : rules.Sound) : Reads (switchCase rules) Tree.literals := by
  intro scope c t c' text stack held h hc
  have hrules := hr.reads
  have hall := @Reads.many (do return (← atWords ["case", "default"]) || (← atMark "\x7d")) _
    (fun _ _ _ _ h => by simp only [↓yields_looks, yields_pure] at h; exact h.2)
    (hr.rule (.statement true) rfl)
  rw [switchCase] at h
  simp only [pure_bind, yields_bind, yields_ite, yields_bracketed, yields_within, yields_finish, List.cons_append,
    List.nil_append] at h
  grind -linarith

@[grind →] theorem reads_switchStatement (hr : rules.Sound) : Reads (switchStatement rules start) Tree.literals := by
  intro scope c t c' text stack held h hc
  have hall := @Reads.many (atMark "\x7d") _ (by simp) (reads_switchCase hr)
  rw [switchStatement] at h
  simp only [↓yields_looks, yields_bind, yields_finish] at h
  grind -linarith

@[grind →] theorem reads_returnStatement (hr : rules.Sound) : Reads (returnStatement rules start) Tree.literals := by
  intro scope c t c' text stack held h hc
  have hrules := hr.reads
  rw [returnStatement] at h
  simp only [pure_bind, ↓yields_looks, yields_bind, yields_ite, yields_bracketed, yields_finish] at h
  grind -linarith

@[grind →] theorem reads_throwStatement (hr : rules.Sound) : Reads (throwStatement rules start) Tree.literals := by
  intro scope c t c' text stack held h hc
  have hrules := hr.reads
  rw [throwStatement] at h
  simp only [↓yields_looks, yields_bind, yields_bracketed, yields_finish] at h
  grind -linarith

@[grind →] theorem reads_catchClause (hr : rules.Sound) : Reads (catchClause rules start) Tree.literals := by
  intro scope c t c' text stack held h hc
  have hrules := hr.reads
  rw [catchClause] at h
  simp only [pure_bind, ↓yields_looks, yields_bind, yields_ite, yields_finish, List.cons_append] at h
  grind -linarith

@[grind →] theorem reads_tryStatement (hr : rules.Sound) : Reads (tryStatement rules start) Tree.literals := by
  intro scope c t c' text stack held h hc
  have hrules := hr.reads
  rw [tryStatement] at h
  simp only [pure_bind, ↓yields_looks, yields_bind, yields_ite, yields_finish, List.cons_append] at h
  grind -linarith

/-! ## Statements without a keyword -/

@[grind →] theorem reads_labelled (hr : rules.Sound) : Reads (labelled rules start label) Tree.literals := by
  intro scope c t c' text stack held h hc
  have hrules := hr.reads
  rw [labelled] at h
  simp only [↓yields_looks, yields_bind, yields_within, yields_finish] at h
  grind -linarith

@[grind →] theorem reads_expressionStatement (hr : rules.Sound) :
    Reads (expressionStatement rules start) Tree.literals := by
  intro scope c t c' text stack held h hc
  have hrules := hr.reads
  rw [expressionStatement] at h
  simp only [yields_bind, yields_ite, yields_bracketed, yields_finish] at h
  obtain ⟨e, c₁, he, labels, c₂, hcolon, h⟩ := h
  have hstands := hr.rule .expression rfl he hc
  clear he hc
  have hbehind : Stands text stack (held + e.literals) c₂ := by
    grind -linarith
  clear hcolon hstands
  split at h
  · exact reads_labelled hr h hbehind.drop
  · grind -linarith

@[grind →] theorem reads_decoratedClass (hr : rules.Sound) : Reads (decoratedClass rules) Tree.literals := by
  intro scope c t c' text stack held h hc
  rw [decoratedClass] at h
  simp only [↓yields_looks, yields_bind, yields_ite, yields_pure] at h
  obtain ⟨decorators, c₁, hdecorators, h⟩ := h
  have hstands := hr.rule .decorators rfl hdecorators hc
  have hsum : held + decorators.literals = held + Tree.literalsOf [decorators] := by
    simp
  rw [hsum] at hstands
  clear hdecorators hc
  split at h
  · obtain ⟨_, c₂, hmove, member, c₃, hmember, rfl, rfl⟩ := h
    refine stands_decorated (hr.rule _ rfl hmember ?_)
    grind -linarith
  · obtain ⟨member, c₂, hmember, rfl, rfl⟩ := h
    exact stands_decorated (hr.rule _ rfl hmember hstands)

theorem isWord_of_atDeclare (h : Yields atDeclare scope c true c') : isWord c.token "declare" = true := by
  rw [atDeclare] at h
  simp only [↓yields_looks, yields_ite, yields_pure] at h
  grind -linarith

/-- Behind `declare` an ambient declaration is read, or nothing is. -/
theorem reads_declared (hr : rules.Sound) (hword : isWord c.token "declare" = true)
    (h : Yields (do
      advance
      match ← ambientDeclaration? rules start with
      | some t => return t
      | none => reject) scope c t c') (hc : Stands text stack held c) :
    Stands text stack (held + t.literals) c' := by
  obtain ⟨_, c₁, hmove, h⟩ := yields_bind.mp h
  obtain ⟨found, c₂, hfound, h⟩ := yields_bind.mp h
  have hstands := stands_plain hmove (isPlain_of_isName (isName_of_isWord hword)) hc
  cases found with
  | some t =>
      obtain ⟨rfl, rfl⟩ := yields_pure.mp h
      exact reads_ambientDeclaration? hr hfound hstands
  | none => exact absurd h yields_reject

theorem reads_typedStatement? (hr : rules.Sound) : Reads (typedStatement? rules start) Tree.literals? := by
  intro scope c t? c' text stack held h hc
  rw [typedStatement?] at h
  simp only [↓yields_looks, yields_bind, yields_ite, yields_pure] at h
  split at h
  · exact stands_none h hc
  split at h
  · obtain ⟨_, c₁, hmove, _, c₂, hmove', t, c₃, ht, rfl, rfl⟩ := h
    have hbehind : Stands text stack held c₂ := by
      grind -linarith [→ yields_advance]
    exact stands_some rfl (reads_enumTail hr ht hbehind)
  obtain ⟨declares, c₁, hlook, h⟩ := h
  obtain rfl := yields_atDeclare hlook
  split at h
  · rename_i hdeclares
    subst hdeclares
    rcases yields_tryRule.mp h with ⟨t, rfl, ht⟩ | ⟨rfl, rfl, _⟩
    · exact stands_some rfl (reads_declared hr (isWord_of_atDeclare hlook) ht hc)
    · exact stands_none ⟨rfl, rfl⟩ hc
  split at h
  · obtain ⟨_, c₂, hmove, t, c₃, ht, rfl, rfl⟩ := h
    have hbehind : Stands text stack held c₂ := by
      grind -linarith
    exact stands_some rfl (reads_globalTail hr ht hbehind)
  · exact reads_typedDeclaration? hr h hc

theorem reads_debuggerTail : Reads (do expectSemicolon; finish .debuggerStatement start "" []) Tree.literals := by
  intro scope c t c' text stack held h hc
  simp only [yields_bind, yields_finish] at h
  grind -linarith

theorem reads_withTail (hr : rules.Sound) :
    Reads (do
      fault
      let e ← headExpression rules
      let body ← rules (.statement false)
      finish .withStatement start "" [e, body]) Tree.literals := by
  intro scope c t c' text stack held h hc
  have hrules := hr.reads
  simp only [yields_bind, yields_finish] at h
  grind -linarith

theorem reads_keywordStatement? {declarations : Bool} (hr : rules.Sound) :
    Reads (keywordStatement? rules start declarations) Tree.literals? := by
  intro scope c t? c' text stack held h hc
  rw [keywordStatement?] at h
  simp only [↓yields_looks] at h
  split at h
  · rename_i hlexeme
    -- Most statements are what stands behind their keyword; those that read it again come first.
    have hbehind : ∀ {p : Parse Tree}, Reads p Tree.literals →
        Yields (do advance; return some (← p)) scope c t? c' →
          Stands text stack (held + Tree.literals? t?) c' := by
      intro p hp hread
      simp only [yields_bind, yields_pure] at hread
      obtain ⟨_, c₁, hmove, t, c₂, ht, rfl, rfl⟩ := hread
      exact stands_some rfl (hp ht (stands_plain hmove (by rw [Token.isPlain, hlexeme]) hc))
    split at h
    · obtain ⟨t, c₁, ht, h⟩ := yields_bind.mp h
      obtain ⟨rfl, rfl⟩ := yields_pure.mp h
      exact stands_some rfl (reads_variableList hr ht hc)
    · simp only [↓yields_looks, yields_bind, yields_pure] at h
      obtain ⟨_, t, c₁, ht, rfl, rfl⟩ := h
      exact stands_some rfl (reads_variableList hr ht hc)
    · simp only [yields_bind, yields_pure] at h
      obtain ⟨_, c₁, hfault, t, c₂, ht, rfl, rfl⟩ := h
      exact stands_some rfl (reads_function hr rfl ht (stands_faultIf hfault hc))
    · simp only [yields_bind, yields_pure] at h
      obtain ⟨_, c₁, hfault, t, c₂, ht, rfl, rfl⟩ := h
      exact stands_some rfl (hr.rule _ rfl ht (stands_faultIf hfault hc))
    · exact hbehind (reads_ifStatement hr) h
    · exact hbehind (reads_forStatement hr) h
    · exact hbehind (reads_whileStatement hr) h
    · exact hbehind (reads_doStatement hr) h
    · exact hbehind (reads_switchStatement hr) h
    · exact hbehind (reads_returnStatement hr) h
    · exact hbehind (reads_throwStatement hr) h
    · exact hbehind (reads_tryStatement hr) h
    · exact hbehind (reads_jump rfl) h
    · exact hbehind (reads_jump rfl) h
    · exact hbehind reads_debuggerTail h
    · exact hbehind (reads_withTail hr) h
    · exact stands_none (yields_pure.mp h) hc
  · exact stands_none (yields_pure.mp h) hc

theorem kind_usingVariables (h : Yields (usingVariables rules b) scope c t c') : t.kind = .variableList := by
  rw [usingVariables] at h
  simp only [↓yields_looks, yields_bind, yields_finish] at h
  obtain ⟨_, _, _, _, _, _, _, _, _, _, _, _, rfl, _⟩ := h
  rfl

/-- What is left where no keyword stands: functions and variables behind words that may be names, and
expressions. -/
theorem reads_plainStatement {declarations : Bool} (hr : rules.Sound) :
    Reads (do
      if ← atAsyncFunction then
        faultIf !declarations
        return ← function rules .functionDecl true
      if declarations && (← atLet) then return ← variableList rules
      if declarations && (← atUsing) then
        let t ← usingVariables rules false
        expectSemicolon
        return ← finish t.kind start t.name t.parts
      expressionStatement rules start) Tree.literals := by
  intro scope c t c' text stack held h hc
  simp only [yields_bind, yields_ite, yields_finish] at h
  obtain ⟨isAsync, c₁, hasync, h⟩ := h
  obtain rfl := yields_atAsyncFunction hasync
  split at h
  · obtain ⟨_, c₂, hfault, ht⟩ := h
    exact reads_function hr rfl ht (stands_faultIf hfault hc)
  obtain ⟨isLet, c₂, hlet, h⟩ := h
  obtain rfl := yields_atLet hlet
  split at h
  · exact reads_variableList hr h hc
  obtain ⟨isUsing, c₃, husing, h⟩ := h
  obtain rfl := yields_atUsing husing
  split at h
  · obtain ⟨t, c₄, ht, _, c₅, hsemicolon, rfl, rfl⟩ := h
    rw [literals_ranged (by rw [kind_usingVariables ht]; rfl)]
    exact stands_expectSemicolon hsemicolon (reads_usingVariables hr ht hc)
  · exact reads_expressionStatement hr h hc

theorem reads_statement {declarations : Bool} (hr : rules.Sound) :
    Reads (statement rules declarations) Tree.literals := by
  intro scope c t c' text stack held h hc
  rw [statement] at h
  simp only [↓yields_looks, yields_bind, yields_ite, yields_finish] at h
  obtain ⟨isEmpty, c₁, hempty, h⟩ := h
  have hstands : Stands text stack held c₁ := by
    grind -linarith
  clear hempty hc
  split at h
  · grind -linarith
  split at h
  · exact hr.rule .block rfl h hstands
  split at h
  · exact reads_decoratedClass hr h hstands
  obtain ⟨typed?, c₂, htyped, h⟩ := h
  have htyped := reads_typedStatement? hr htyped hstands
  cases typed? with
  | some t =>
      obtain ⟨rfl, rfl⟩ := yields_pure.mp h
      exact htyped
  | none =>
      rw [Tree.literals?_none, add_zero] at htyped
      obtain ⟨keyword?, c₃, hkeyword, h⟩ := yields_bind.mp h
      have hkeyword := reads_keywordStatement? hr hkeyword htyped
      cases keyword? with
      | some t =>
          obtain ⟨rfl, rfl⟩ := yields_pure.mp h
          exact hkeyword
      | none =>
          rw [Tree.literals?_none, add_zero] at hkeyword
          exact reads_plainStatement hr h hkeyword

end Script
end StoryDocs
