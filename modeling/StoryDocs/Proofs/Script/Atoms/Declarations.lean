import StoryDocs.Proofs.Script.Atoms.Expressions
import StoryDocs.Script.Grammar.Declaration

/-!
# Declarations read

The rules for variables and for the declarations of typed scripts leave the brackets open that are open, and
the literals of what they build are closed.
-/

namespace StoryDocs
namespace Script

open Grammar

variable {rules : Rules} {scope : Scope} {c c' : Cursor} {text : List Char} {stack : List (Bracket × Nat)}
  {held : Multiset Literal} {b inHead : Bool} {t : Tree} {kind : String} {start : Nat}

/-! ## Variables -/

@[grind →] theorem reads_declarator (hr : rules.Sound) : Reads (declarator rules kind inHead) Tree.literals := by
  intro scope c t c' text stack held h hc
  have hrules := hr.reads
  rw [declarator] at h
  cases htyped : scope.features.types with
  | false =>
      simp only [pure_bind, ↓yields_looks, yields_bind, yields_ite, yields_finish, htyped, Bool.false_and,
        Bool.false_eq_true, if_false, List.cons_append] at h
      grind -linarith
  | true =>
      simp only [pure_bind, ↓yields_looks, yields_bind, yields_ite, yields_finish, htyped, Bool.true_and, if_true,
        List.cons_append] at h
      grind -linarith

@[grind →] theorem reads_declarators (hr : rules.Sound) : Reads (declarators rules kind inHead) Tree.literalsOf := by
  intro scope c ts c' text stack held h hc
  rw [declarators] at h
  obtain ⟨first, c₁, hfirst, hloop⟩ := yields_bind.mp h
  refine stands_repeatFrom hloop Tree.literalsOf Tree.literalsOf (fun done c r c' text stack held h hc => ?_) ?_
  · simp only [yields_bind, yields_ite, yields_pure] at h
    grind -linarith
  · simpa using reads_declarator hr hfirst hc

@[grind →] theorem reads_variableList (hr : rules.Sound) : Reads (variableList rules) Tree.literals := by
  intro scope c t c' text stack held h hc
  rw [variableList] at h
  simp only [↓yields_looks, yields_bind, yields_finish] at h
  grind -linarith

@[grind →] theorem yields_atLet (h : Yields atLet scope c b c') : c' = c := by
  rw [atLet] at h
  simp only [↓yields_looks, yields_ite, yields_pure] at h
  grind -linarith

@[grind →] theorem yields_atUsing (h : Yields atUsing scope c b c') : c' = c :=
  yields_ahead h

@[grind →] theorem reads_usingVariables (hr : rules.Sound) : Reads (usingVariables rules inHead) Tree.literals := by
  intro scope c t c' text stack held h hc
  rw [usingVariables] at h
  simp only [↓yields_looks, yields_bind, yields_finish] at h
  grind -linarith

/-! ## Declarations of typed scripts -/

@[grind →] theorem reads_enumMember (hr : rules.Sound) : Reads (enumMember rules) Tree.literals := by
  intro scope c t c' text stack held h hc
  have hrules := hr.reads
  rw [enumMember] at h
  simp only [pure_bind, ↓yields_looks, yields_bind, yields_ite, yields_finish] at h
  grind -linarith

@[grind →] theorem reads_enumTail (hr : rules.Sound) : Reads (enumTail rules start) Tree.literals := by
  intro scope c t c' text stack held h hc
  have hitems := Reads.separated "\x7d" (reads_enumMember hr)
  rw [enumTail] at h
  simp only [yields_bind, yields_bracketed, yields_finish] at h
  grind -linarith

@[grind →] theorem reads_interfaceTail (hr : rules.Sound) : Reads (interfaceTail rules start) Tree.literals := by
  intro scope c t c' text stack held h hc
  rw [interfaceTail] at h
  simp only [pure_bind, yields_bind, yields_ite, yields_finish, List.cons_append, List.append_assoc] at h
  grind -linarith

@[grind →] theorem reads_aliasTail (hr : rules.Sound) : Reads (aliasTail rules start) Tree.literals := by
  intro scope c t c' text stack held h hc
  rw [aliasTail] at h
  simp only [yields_bind, yields_finish, List.cons_append] at h
  grind -linarith

theorem reads_moduleBlock (hr : rules.Sound) : Reads (moduleBlock rules) Tree.literals := by
  intro scope c t c' text stack held h hc
  have hall := @Reads.many (atMark "\x7d") _ (by simp) (hr.rule .item rfl)
  rw [moduleBlock] at h
  simp only [↓yields_looks, yields_bind, yields_bracketed, yields_finish] at h
  grind -linarith

theorem reads_namespaceTail (hr : rules.Sound) : Reads (namespaceTail rules start) Tree.literals := by
  intro scope c t c' text stack held h hc
  have hrules := hr.reads
  rw [namespaceTail] at h
  simp only [↓yields_looks, yields_bind, yields_ite, yields_finish] at h
  grind -linarith

@[grind →] theorem reads_quotedModuleTail (hr : rules.Sound) : Reads (quotedModuleTail rules start) Tree.literals := by
  intro scope c t c' text stack held h hc
  have hrules := hr.reads
  rw [quotedModuleTail] at h
  simp only [↓yields_looks, yields_bind, yields_ite, yields_finish] at h
  grind -linarith

@[grind →] theorem reads_globalTail (hr : rules.Sound) : Reads (globalTail rules start) Tree.literals := by
  intro scope c t c' text stack held h hc
  have hrules := hr.reads
  rw [globalTail] at h
  simp only [yields_bind, yields_finish] at h
  grind -linarith

/-- What stands behind a word that starts a declaration. -/
theorem reads_behindWord {p : Parse Tree} {w : String} (hword : isWord c.token w = true)
    (hp : Reads p Tree.literals) {t? : Option Tree}
    (h : ∃ u c₁, Yields advance scope c u c₁ ∧ ∃ t c₂, Yields p scope c₁ t c₂ ∧ t? = some t ∧ c' = c₂)
    (hc : Stands text stack held c) : Stands text stack (held + Tree.literals? t?) c' := by
  obtain ⟨_, c₁, hmove, t, c₂, ht, rfl, rfl⟩ := h
  exact stands_some rfl (hp ht (stands_plain hmove (isPlain_of_isName (isName_of_isWord hword)) hc))

theorem reads_typedDeclaration? {certain : Bool} (hr : rules.Sound) :
    Reads (typedDeclaration? rules start certain) Tree.literals? := by
  intro scope c t? c' text stack held h hc
  rw [typedDeclaration?] at h
  simp only [↓yields_looks, yields_bind, yields_ite, yields_pure] at h
  split at h
  · exact reads_behindWord (w := "abstract") (by grind -linarith) (hr.rule _ rfl) h hc
  split at h
  · exact reads_behindWord (w := "enum") (by grind -linarith) (reads_enumTail hr) h hc
  split at h
  · exact reads_behindWord (w := "interface") (by grind -linarith) (reads_interfaceTail hr) h hc
  -- The tests behind the one for a module, which are made also where its word turns out to be a name.
  have hrest : ∀ ⦃t?⦄, Yields (do
        if isWord c.token "namespace" && (certain || isReference (Token.read scope.bound c.token.rest c.token.stop)) then
          advance
          return some (← rules (.namespaceTail start))
        if isWord c.token "type" && (certain || (isReference (Token.read scope.bound c.token.rest c.token.stop) &&
            !(Token.read scope.bound c.token.rest c.token.stop).afterBreak)) then
          advance
          return some (← aliasTail rules start)
        return none) scope c t? c' → Stands text stack (held + Tree.literals? t?) c' := by
    intro t? h
    simp only [yields_bind, yields_ite, yields_pure] at h
    split at h
    · exact reads_behindWord (w := "namespace") (by grind -linarith) (hr.rule _ rfl) h hc
    split at h
    · exact reads_behindWord (w := "type") (by grind -linarith) (reads_aliasTail hr) h hc
    · exact stands_none h hc
  split at h
  · rename_i hmodule
    split at h
    · simp only [yields_bind, yields_pure] at h
      exact reads_behindWord (w := "module") (by grind -linarith) (reads_quotedModuleTail hr) h hc
    · rcases yields_if.mp h with ⟨_, h⟩ | ⟨_, h⟩
      · simp only [yields_bind, yields_pure] at h
        exact reads_behindWord (w := "module") (by grind -linarith) (hr.rule _ rfl) h hc
      · exact hrest h
  · refine hrest ?_
    simp only [yields_bind, yields_ite, yields_pure]
    exact h

/-- The literals of a node that is no literal do not depend on its range. -/
theorem literals_ranged (h : t.kind.isLiteral = false) (sp : Span) :
    (Tree.node t.kind sp t.name t.parts).literals = t.literals := by
  obtain ⟨k, sp', name, ts⟩ := t
  exact (Tree.literals_node h _ _ _).trans (Tree.literals_node h _ _ _).symm

theorem literals_startingAt (h : t.kind.isLiteral = false) (start : Nat) :
    (t.startingAt start).literals = t.literals := by
  obtain ⟨k, sp, name, ts⟩ := t
  exact literals_ranged h ⟨start, sp.stop⟩

theorem kind_variableList (h : Yields (variableList rules) scope c t c') : t.kind = .variableList := by
  rw [variableList] at h
  simp only [↓yields_looks, yields_bind, yields_finish] at h
  obtain ⟨_, _, _, _, _, _, _, _, _, rfl, _⟩ := h
  rfl

theorem kind_function {kind : Kind} (h : Yields (function rules kind b) scope c t c') : t.kind = kind := by
  rw [function] at h
  simp only [↓yields_looks, yields_bind] at h
  obtain ⟨_, _, _, h⟩ := h
  rw [functionFrom] at h
  simp only [pure_bind, ↓yields_looks, yields_bind, yields_ite, yields_finish] at h
  grind -linarith [Tree.kind]

theorem reads_ambientDeclaration? (hr : rules.Sound) : Reads (ambientDeclaration? rules start) Tree.literals? := by
  intro scope c t? c' text stack held h hc
  rw [ambientDeclaration?] at h
  simp only [↓yields_looks, yields_bind, yields_within] at h
  generalize ({ scope with ambient := true } : Scope) = inner at h
  obtain ⟨_, c₁, hfault, h⟩ := h
  have hstands := stands_faultIf hfault hc
  clear hfault hc
  simp only [↓yields_looks, yields_bind, yields_ite, yields_pure] at h
  split at h
  · obtain ⟨t, c₂, ht, rfl, rfl⟩ := h
    refine stands_some rfl ?_
    rw [literals_startingAt (by rw [kind_function ht]; rfl)]
    exact reads_function hr rfl ht hstands
  split at h
  · obtain ⟨t, c₂, ht, rfl, rfl⟩ := h
    exact stands_some rfl (hr.rule _ rfl ht hstands)
  split at h
  · obtain ⟨_, c₂, hmove, _, c₃, hmove', t, c₄, ht, rfl, rfl⟩ := h
    have hbehind : Stands text stack held c₃ := by
      grind -linarith [→ yields_advance]
    exact stands_some rfl (reads_enumTail hr ht hbehind)
  split at h
  · obtain ⟨t, c₂, ht, rfl, rfl⟩ := h
    refine stands_some rfl ?_
    rw [literals_startingAt (by rw [kind_variableList ht]; rfl)]
    exact reads_variableList hr ht hstands
  obtain ⟨isGlobal, c₂, hglobal, h⟩ := h
  have hbehind : Stands text stack held c₂ := by
    grind -linarith
  clear hglobal hstands
  split at h
  · obtain ⟨t, c₃, ht, rfl, rfl⟩ := h
    exact stands_some rfl (reads_globalTail hr ht hbehind)
  · exact reads_typedDeclaration? hr h hbehind

@[grind →] theorem yields_atDeclare (h : Yields atDeclare scope c b c') : c' = c := by
  rw [atDeclare] at h
  simp only [↓yields_looks, yields_ite, yields_pure] at h
  grind -linarith

end Script
end StoryDocs
