import StoryDocs.Proofs.Script.Operand

/-!
# Object literals and their exports

How an object literal is read from the runs of its members, and how the two exports of an object literal
are read around it: the default export and the export of a constant.
-/

namespace StoryDocs
namespace Script

/-- The scope of module items. -/
def moduleScope (features : Features) (bound : Nat) : Scope :=
  { features, bound }

@[simp] theorem moduleScope_bound (features : Features) (bound : Nat) :
    (moduleScope features bound).bound = bound := rfl

namespace Grammar

variable {scope : Scope} {c c₁ c₂ c' : Cursor} {key value : Tree} {es : List Tree} {d : Nat} {rs : Rules}

/-! ## Members -/

theorem propertyKey_word {name : String} (h : c.token.lexeme = .word name false)
    (hsound : c.token.Sound) : propertyKey rs scope c =
      some (.node .name ⟨c.token.start, c.token.stop⟩ name [], c.next scope.bound) := by
  have hliteral : isLiteralKey c.token = false := by rw [isLiteralKey, h]
  simp [propertyKey, anyName, hliteral, isMark_of_word h, h, run_map, run_advance hsound]

theorem propertyKey_string {text : String} (h : c.token.lexeme = .string text)
    (hsound : c.token.Sound) : propertyKey rs scope c =
      some (.node .string ⟨c.token.start, c.token.stop⟩ text [], c.next scope.bound) := by
  have hliteral : isLiteralKey c.token = true := by rw [isLiteralKey, h]
  simp [propertyKey, literalKey, hliteral, h, run_map, run_advance hsound]

theorem objectProperty_keyed (hdots : isMark c.token "..." = false) (hstar : isMark c.token "*" = false)
    (hkey : propertyKey rs scope c = some (key, c₁)) (hcolon : isMark c₁.token ":" = true)
    (hsound : c₁.token.Sound)
    (hvalue : rs .assignment scope (c₁.next scope.bound) = some (value, c')) :
    objectProperty rs scope c =
      some (.node .property ⟨c.token.start, c'.lastStop⟩ "" [key, value], c') := by
  simp [objectProperty, hdots, hstar, run_bind_of hkey, hcolon, advance_bind_run hsound,
    run_bind_of hvalue]

theorem objectProperty_spread (hdots : isMark c.token "..." = true) (hsound : c.token.Sound)
    (hvalue : rs .assignment scope (c.next scope.bound) = some (value, c')) :
    objectProperty rs scope c =
      some (.node .spread ⟨c.token.start, c'.lastStop⟩ "" [value], c') := by
  simp [objectProperty, spreadable, hdots, advance_bind_run hsound, run_bind_of hvalue]

/-! ## Object literals -/

/-- An object literal is read from its members. -/
theorem object_members (hopen : isMark c.token "\x7b" = true) (hsound : c.token.Sound)
    (hin : scope.inOperator = true) (hcolon : scope.awaitsColon = false)
    (hmembers : Separated scope "\x7d" (objectProperty rs) (c.next scope.bound) es c')
    (hclose : c'.token.Sound) (hbound : es.length ≤ scope.bound) :
    object rs scope c = some (.node .object ⟨c.token.start, c'.token.stop⟩
      (literalName es c'.lastStop) es, c'.next scope.bound) := by
  have hopened := @run_expectMark scope c _ hopen hsound
  have hclosed := @run_expectMark scope c' _ hmembers.closes hclose
  have hread : bracketed (separated "\x7d" (objectProperty rs)) scope (c.next scope.bound) =
      some (es, c') := by
    rw [run_bracketed hin hcolon, hmembers.run hbound]
  simp [object, run_bind_of hopened, run_bind_of hread, run_bind_of hclosed]
  rfl

theorem startsOperand_brace (h : isMark c.token "\x7b" = true) : c.token.StartsOperand := by
  have hlexeme := lexeme_of_isMark h
  constructor
  · intro m hm
    rw [isMark_of_mark hlexeme, beq_eq_false_iff_ne]
    rintro rfl
    exact absurd hm (by decide)
  · intro w _
    exact isWord_of_mark hlexeme w

/-- An assignment that is an object literal. -/
theorem assignment_object (hopen : isMark c.token "\x7b" = true)
    (hgenerator : scope.inGenerator = false)
    (hobject : object (rules d) scope c = some (value, c')) (hclose : c'.token.Closes)
    (hkind : value.kind = .object) : rules (d + 4) .assignment scope c = some (value, c') := by
  have hlexeme := lexeme_of_isMark hopen
  have hreference : isReference c.token = false := by
    rw [isReference, hlexeme]
  have hprimary : primary (rules (d + 1)) scope c = some (value, c') := by
    have hliteral : isLiteralKey c.token = false := by rw [isLiteralKey, hlexeme]
    have hrule : rules (d + 1) .object scope c = some (value, c') := hobject
    simp [primary, hliteral, isMark_of_mark hlexeme, hrule]
  refine assignment_operand (startsOperand_brace hopen) hgenerator (by simp [hreference]) hprimary ?_
    hclose
  exact subscripts_closes hclose (by simp [hkind]) (by simp [hkind]) true

/-! ## Exports -/

/-- No export of typed scripts starts at one of the words that all scripts export with. -/
theorem typedExport?_plain {word : String} (hword : c.token.lexeme = .word word false)
    (hplain : word = "default" ∨ word = "const") (start : Nat) :
    typedExport? rs start scope c = some (none, c) := by
  have hmark := isMark_of_word hword
  have htest := isWord_of_word hword
  have hdeclare : atDeclare scope c = some (false, c) := by
    rcases hplain with rfl | rfl <;> simp [atDeclare, htest]
  unfold typedExport?
  rcases hplain with rfl | rfl <;> simp [exportWhole?, run_bind_of hdeclare, htest, hmark]

theorem atClass_brace (h : c.token.lexeme = .mark "\x7b") : atClass scope c = some (false, c) := by
  simp [atClass, isMark_of_mark h, isWord_of_mark h]

theorem atAsyncFunction_other (h : isWord c.token "async" = false) :
    atAsyncFunction scope c = some (false, c) := by
  simp [atAsyncFunction, h]

/-- A default export of an object literal. -/
theorem item_default (hexport : c.token.lexeme = .word "export" false) (hsound : c.token.Sound)
    (hdefault : (c.next scope.bound).token.lexeme = .word "default" false)
    (hsound₁ : (c.next scope.bound).token.Sound)
    (hopen : isMark ((c.next scope.bound).next scope.bound).token "\x7b" = true)
    (hin : scope.inOperator = true) (hcolon : scope.awaitsColon = false)
    (hvalue : rs .assignment scope ((c.next scope.bound).next scope.bound) = some (value, c'))
    (hend : isMark c'.token ";" = true) (hsound' : c'.token.Sound) :
    item rs scope c = some (.node .exportDefaultExpr ⟨c.token.start, c'.token.stop⟩ "" [value],
      c'.next scope.bound) := by
  generalize hc₁ : c.next scope.bound = c₁ at *
  generalize hc₂ : c₁.next scope.bound = c₂ at *
  have hbrace := lexeme_of_isMark hopen
  -- A brace starts no class and no function, so the exported value is an expression.
  have hclass := @atClass_brace scope c₂ hbrace
  have hasync := @atAsyncFunction_other scope c₂ (isWord_of_mark hbrace _)
  have hfrom : atDefaultFrom scope c₂ = some (false, c₂) := by
    unfold atDefaultFrom
    dsimp only
    simp [isMark_of_mark hbrace, isWord_of_mark hbrace]
  have hexpression : exportDefault rs c.token.start (.node .name ⟨c₁.token.start, c₁.token.stop⟩
      "default" []) scope c₂ = some (.node .exportDefaultExpr ⟨c.token.start, c'.token.stop⟩ "" [value],
        c'.next scope.bound) := by
    have hread : bracketed (rs .assignment) scope c₂ = some (value, c') := by
      rw [run_bracketed hin hcolon, hvalue]
    have hsemicolon := @run_expectSemicolon scope c' hend hsound'
    unfold exportDefault
    dsimp only
    simp [run_bind_of hclass, isWord_of_mark hbrace, run_bind_of hasync, run_bind_of hfrom,
      run_bind_of hread, run_bind_of hsemicolon]
    rfl
  have hexported := @run_expectWord scope c "export" (by rw [isWord_of_word hexport]; rfl) hsound
  rw [hc₁] at hexported
  have hitem : exportItem rs scope c = some (.node .exportDefaultExpr
      ⟨c.token.start, c'.token.stop⟩ "" [value], c'.next scope.bound) := by
    have htype := @run_eatWordIf_of_not scope c₁ "type" scope.features.types (by rw [isWord_of_word hdefault]; rfl)
    unfold exportItem
    simp [exportTail, run_bind_of hexported, run_bind_of (typedExport?_plain hdefault (.inl rfl) _),
      run_bind_of htype, isWord_of_word hdefault, isMark_of_word hdefault, advance_bind_run hsound₁, hc₂, hexpression]
  simp [item, isWord_of_word hexport, hitem]

/-- A name that a constant can have. -/
structure BindingWord (name : String) : Prop where
  not_reserved : isReserved name = false
  ne_eval : name ≠ "eval"
  ne_arguments : name ≠ "arguments"

instance decidableBindingWord (name : String) : Decidable (BindingWord name) :=
  decidable_of_iff (isReserved name = false ∧ name ≠ "eval" ∧ name ≠ "arguments")
    ⟨fun ⟨h, h', h''⟩ => ⟨h, h', h''⟩, fun ⟨h, h', h''⟩ => ⟨h, h', h''⟩⟩

theorem BindingWord.ne_of_reserved {name word : String} (h : BindingWord name)
    (hword : isReserved word = true) : name ≠ word := by
  rintro rfl
  rw [h.not_reserved] at hword
  cases hword

theorem bindingName_word {name : String} (hname : c.token.lexeme = .word name false)
    (hsound : c.token.Sound) (hbinding : BindingWord name) : bindingName scope c =
      some (.node .identifier ⟨c.token.start, c.token.stop⟩ name [], c.next scope.bound) := by
  have hreserved := hbinding.not_reserved
  rw [isReserved, Bool.or_eq_false_iff] at hreserved
  have hfault : (strictReserved.contains name || name == "eval" || name == "arguments") = false := by
    simp only [hreserved.2, Bool.false_or, Bool.or_eq_false_iff, beq_eq_false_iff_ne]
    exact ⟨hbinding.ne_eval, hbinding.ne_arguments⟩
  simp only [bindingName, token_bind_run, hname, typed_bind_run, read_bind_run, require_bind_run,
    hreserved.1, Bool.not_false, Bool.or_true, if_true, hfault, run_bind_of run_faultIf_false,
    advance_bind_run hsound, run_pure]

/-- A declaration of one constant. -/
theorem variableList_constant {name : String} (hconst : c.token.lexeme = .word "const" false)
    (hsound : c.token.Sound) (hname : (c.next scope.bound).token.lexeme = .word name false)
    (hsound₁ : (c.next scope.bound).token.Sound) (hbinding : BindingWord name)
    (hequals : isMark ((c.next scope.bound).next scope.bound).token "=" = true)
    (hsound₂ : ((c.next scope.bound).next scope.bound).token.Sound)
    (hvalue : rules (d + 1) .assignment scope (((c.next scope.bound).next scope.bound).next scope.bound) =
      some (value, c'))
    (hloose : value.hasLooseDefault = false) (hend : isMark c'.token ";" = true)
    (hsound' : c'.token.Sound) : ∃ span span' : Span,
      variableList (rules (d + 1)) scope c = some (.node .variableList ⟨c.token.start, c'.token.stop⟩
        "const" [.node .declarator span "=" [.node .identifier span' name [], value]],
          c'.next scope.bound) := by
  generalize hc₁ : c.next scope.bound = c₁ at *
  generalize hc₂ : c₁.next scope.bound = c₂ at *
  generalize hc₃ : c₂.next scope.bound = c₃ at *
  have hsign := lexeme_of_isMark hequals
  have hlast := lexeme_of_isMark hend
  -- Each rule on its own token, from the keyword on.
  have hword : anyName scope c =
      some (.node .name ⟨c.token.start, c.token.stop⟩ "const" [], c₁) := by
    simp only [anyName, token_bind_run, hconst, advance_bind_run hsound, run_pure, hc₁]
  have hpattern : rules (d + 1) .pattern scope c₁ =
      some (.node .identifier ⟨c₁.token.start, c₁.token.stop⟩ name [], c₂) := by
    show pattern (rules d) scope c₁ = _
    rw [← hc₂, ← bindingName_word hname hsound₁ hbinding]
    simp [pattern, isMark_of_word hname]
  have hlet : isWord c₁.token "let" = false := by
    rw [isWord_of_word hname, beq_eq_false_iff_ne]
    exact hbinding.ne_of_reserved rfl
  have hannotation : annotation? (rules (d + 1)) scope c₂ = some ([], c₂) := by
    simp [annotation?, isMark_of_mark hsign]
  have hdeclarator : declarator (rules (d + 1)) "const" false scope c₁ = some (.node .declarator
      ⟨c₁.token.start, c'.lastStop⟩ "="
        [.node .identifier ⟨c₁.token.start, c₁.token.stop⟩ name [], value], c') := by
    unfold declarator
    dsimp only
    simp [hlet, run_bind_of hpattern, run_bind_of hannotation, isMark_of_mark hsign,
      advance_bind_run hsound₂, hc₃, run_bind_of hvalue, hloose, run_bind_of run_faultIf_false, Tree.kind]
  have hdeclarators : declarators (rules (d + 1)) "const" false scope c₁ = some ([.node .declarator
      ⟨c₁.token.start, c'.lastStop⟩ "="
        [.node .identifier ⟨c₁.token.start, c₁.token.stop⟩ name [], value]], c') := by
    simp [declarators, run_bind_of hdeclarator, repeatFrom, iterate, isMark_of_mark hlast]
  have hsemicolon := @run_expectSemicolon scope c' hend hsound'
  refine ⟨⟨c₁.token.start, c'.lastStop⟩, ⟨c₁.token.start, c₁.token.stop⟩, ?_⟩
  simp [variableList, run_bind_of hword, Tree.name, run_bind_of hdeclarators, run_bind_of hsemicolon]
  rfl

/-- An export of one constant. -/
theorem item_constant {name : String} (hexport : c.token.lexeme = .word "export" false)
    (hsound : c.token.Sound) (hconst : (c.next scope.bound).token.lexeme = .word "const" false)
    (hname : ((c.next scope.bound).next scope.bound).token.lexeme = .word name false)
    (hbinding : BindingWord name)
    (hvariables : variableList rs scope (c.next scope.bound) = some (value, c')) :
    item rs scope c = some (.node .exportDecl ⟨c.token.start, c'.lastStop⟩ "" [value], c') := by
  have hexported := @run_expectWord scope c "export" (by rw [isWord_of_word hexport]; rfl) hsound
  generalize c.next scope.bound = c₁ at *
  have hclass : atClass scope c₁ = some (false, c₁) := by
    simp [atClass, isMark_of_word hconst, isWord_of_word hconst]
  have hasync := @atAsyncFunction_other scope c₁ (by rw [isWord_of_word hconst]; rfl)
  have henum : isWord (c₁.next scope.bound).token "enum" = false := by
    rw [isWord_of_word hname, beq_eq_false_iff_ne]
    exact hbinding.ne_of_reserved rfl
  have hdeclared : exportedDeclaration? rs scope c₁ = some (some value, c') := by
    have hlet : atLet scope c₁ = some (false, c₁) := by simp [atLet, isWord_of_word hconst]
    unfold exportedDeclaration?
    simp [run_bind_of hclass, run_bind_of hasync, isWord_of_word hconst, henum, run_bind_of hlet, run_map,
      hvariables]
  have hitem : exportItem rs scope c =
      some (.node .exportDecl ⟨c.token.start, c'.lastStop⟩ "" [value], c') := by
    have htype := @run_eatWordIf_of_not scope c₁ "type" scope.features.types (by rw [isWord_of_word hconst]; rfl)
    unfold exportItem
    simp [exportTail, run_bind_of hexported, run_bind_of (typedExport?_plain hconst (.inr rfl) _),
      run_bind_of htype, isWord_of_word hconst, isMark_of_word hconst, run_bind_of hdeclared]
  simp [item, isWord_of_word hexport, hitem]

end Grammar

/-- A module is read from the runs of its items. -/
theorem Module.parse?_of_repeated {features : Features} {text : List Char} {es : List Tree}
    {rest : List Char} {stop : Nat} (hstart : skipInterpreter text = (text, 0))
    (h : Grammar.Repeated (moduleScope features (text.length + 1)) Grammar.atEnd
      (Grammar.rules (depthBound text) .item) (.front (text.length + 1) text 0) es
        (.front (text.length + 1) rest stop))
    (hcount : es.length ≤ text.length) : Module.parse? features text = some es := by
  have hrun := h.run (by simp; omega)
  have hitems : Grammar.many Grammar.atEnd (Grammar.rules (depthBound text) .item)
      { features := features, bound := text.length + 1 }
        { token := Token.read (text.length + 1) text 0 } =
          some (es, .front (text.length + 1) rest stop) := hrun
  simp only [Module.parse?, hstart, hitems]
  rfl

end Script
end StoryDocs
