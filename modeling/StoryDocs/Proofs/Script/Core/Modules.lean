import StoryDocs.Proofs.Script.Core.Imports
import StoryDocs.Proofs.Script.Fragments

/-!
# Modules of the syntax

Imports, constants, exports and expressions between brackets, each with its semicolon, with gaps between them.  A
parser that reads such a module as what it says accepts whatever is put together from texts of the syntax: values with
commas between them are accepted as an expression.
-/

namespace StoryDocs
namespace Script

open Text Grammar

variable {tags : Bool} {features : Features} {bound depth n d : Nat} {c : Char}
  {g rest s text w : List Char} {shape : Shape}
  {shapes : List Shape} {scope : Scope} {name : String}

/-! ## The syntax -/

/-- The declaration of a constant with its end. -/
inductive CoreConstant (tags : Bool) : List Char → Shape → Prop
  | mk {g g₁ g₂ g₃ w text : List Char} {shape : Shape} (hg : IsSpace g) (hw : IsWord w)
      (hbinding : BindingWord (String.ofList w)) (hg₁ : IsGap g₁) (hg₂ : IsSpace g₂)
        (htext : Core tags .value text [shape])
      (hg₃ : IsGap g₃) :
      CoreConstant tags ("const".toList ++ (g ++ (w ++ (g₁ ++ '=' :: (g₂ ++ (text ++ (g₃ ++ [';'])))))))
        (.node .variableList "const" [.node .declarator "=" [.node .identifier (String.ofList w) [], shape]])

/-- The items of modules. -/
inductive CoreItem (tags : Bool) : List Char → Shape → Prop
  | import {text : List Char} {shape : Shape} (h : CoreImport text shape) : CoreItem tags text shape
  | constant {text : List Char} {shape : Shape} (h : CoreConstant tags text shape) : CoreItem tags text shape
  | exported {g text : List Char} {shape : Shape} (hg : IsSpace g) (h : CoreConstant tags text shape) :
      CoreItem tags ("export".toList ++ (g ++ text)) (.node .exportDecl "" [shape])
  /-- The export of a value that starts with a brace, and so is neither a function nor a class. -/
  | default {g g₁ g₂ text : List Char} {shape : Shape} (hg : IsSpace g) (hg₁ : IsGap g₁)
      (htext : Core tags .value text [shape]) (hbrace : text.head? = some '\x7b') (hg₂ : IsGap g₂) :
      CoreItem tags ("export".toList ++ (g ++ ("default".toList ++ (g₁ ++ (text ++ (g₂ ++ [';']))))))
        (.node .exportDefaultExpr "" [shape])
  /-- An expression that starts with a bracket, and so is no declaration. -/
  | expression {g text : List Char} {shape : Shape} (htext : Core tags .value text [shape])
      (hbracket : text.head? = some '(') (hg : IsGap g) :
      CoreItem tags (text ++ (g ++ [';'])) (.node .expressionStatement "" [shape])

/-- Items with gaps in front of them and behind the last. -/
inductive CoreModule (tags : Bool) : List Char → List Shape → Prop
  | nil {g : List Char} (hg : IsGap g) : CoreModule tags g []
  | cons {g text rest : List Char} {shape : Shape} {shapes : List Shape} (hg : IsGap g)
    (htext : CoreItem tags text shape)
      (hrest : CoreModule tags rest shapes) : CoreModule tags (g ++ (text ++ rest)) (shape :: shapes)

theorem CoreModule.gap_front (h : CoreModule tags text shapes) (hg : IsGap g) : CoreModule tags (g ++ text) shapes := by
  cases h with
  | nil hg' => exact .nil (hg.append hg')
  | cons hg' htext hrest =>
      rw [← List.append_assoc]
      exact .cons (hg.append hg') htext hrest

/-- Modules of the syntax can be put one behind the other. -/
theorem CoreModule.append {shapes' : List Shape} (h : CoreModule tags text shapes) (h' : CoreModule tags s shapes') :
    CoreModule tags (text ++ s) (shapes ++ shapes') := by
  induction h with
  | nil hg => exact h'.gap_front hg
  | cons hg htext _ ih =>
      simp only [List.append_assoc, List.cons_append]
      exact .cons hg htext ih

/-- A parser of modules that accepts the modules of the syntax, as what they say. -/
def ReadsCore (parse? : Features → List Char → Option (List Tree)) : Prop :=
  ∀ ⦃tags features text shapes⦄, features.Allow tags → CoreModule tags text shapes →
    ∃ items, parse? features text = some items ∧ items.map Tree.shape = shapes

/-! ## Tokens -/

/-- The sign of a value that a gap sets apart. -/
theorem Cursor.at_equals (hg : IsGap g) {g' : List Char} (hg' : IsSpace g') (s : List Char) :
    (Cursor.front bound (g ++ '=' :: (g' ++ s)) n).At bound (.mark "=") (g' ++ s) (n + g.length + 1) := by
  have hstarts : ∀ d ∈ '/' :: blanks, d ≠ '=' ∧ d ≠ '>' := by decide
  have hscan : scanMark ('=' :: (g' ++ s)) = some ("=", g' ++ s) := by
    obtain ⟨hgap, hne⟩ := hg'
    cases g' with
    | nil => exact absurd rfl hne
    | cons c g' =>
        obtain ⟨hequals, hangle⟩ := hstarts c (hgap.head_mem c rfl)
        simp [scanMark, longMarks, scanMark.dropMark, shortMarks, Ne.symm hequals, Ne.symm hangle]
  have hread := @Token.read_sign bound n g (g' ++ s) ['='] hg (by decide) hscan
  rw [List.append_assoc] at hread
  exact at_of_read hread (by simp) (by simp)

/-! ## Constants -/

/-- A text that ends an item. -/
theorem closesText_semicolon (hg : IsGap g) (rest : List Char) : ClosesText (g ++ ';' :: rest) :=
  ⟨g, ';', rest, hg, by decide, rfl⟩

/-- The tree of a value of the syntax, in front of the semicolon behind it. -/
theorem Core.exists_assignment (h : Core tags .value text [shape]) (hscope : scope.Fits tags) {g' : List Char}
    (hg : IsGap g) (hg' : IsGap g') (hbound : (g ++ (text ++ (g' ++ ';' :: rest))).length < scope.bound)
    (hdepth : 8 * text.length ≤ d) (n : Nat) : ∃ tree c', rules d .assignment scope
        (.front scope.bound (g ++ (text ++ (g' ++ ';' :: rest))) n) = some (tree, c') ∧ tree.shape = shape ∧
      ∃ stop, c'.At scope.bound (.mark ";") rest stop := by
  rw [← List.append_assoc] at hbound ⊢
  simp only [List.length_append] at hbound
  obtain ⟨tree, stop, hread, hshape, _⟩ := @Core.reads _ _ _ _ h scope d n g (g' ++ ';' :: rest) hscope hg
    (closesText_semicolon hg' rest) (by omega) hdepth shape List.mem_cons_self
  exact ⟨tree, _, hread, hshape, _, Cursor.at_mark hg' (by decide)⟩

/-- A constant is read up to its semicolon, from its keyword on. -/
theorem CoreConstant.exists_variables (h : CoreConstant tags text shape) (hscope : scope.Fits tags) {b : Bool}
    (hg : Skips g b) (hbound : (g ++ text ++ rest).length < scope.bound) (hdepth : 8 * text.length ≤ d) (n : Nat) :
    (Cursor.front scope.bound (g ++ text ++ rest) n).token.lexeme = .word "const" false ∧
      (Cursor.front scope.bound (g ++ text ++ rest) n).token.Sound ∧
      (∃ name, BindingWord name ∧
        ((Cursor.front scope.bound (g ++ text ++ rest) n).next scope.bound).token.lexeme = .word name false) ∧
      ∃ tree stop, variableList (rules d) scope (.front scope.bound (g ++ text ++ rest) n) =
        some (tree, .front scope.bound rest stop) ∧ tree.shape = shape := by
  obtain @⟨g₀, g₁, g₂, g₃, w, text, shape, hg₀, hw, hbinding, hg₁, hg₂, htext, hg₃⟩ := h
  have hsize : "const".toList.length = 5 := rfl
  simp only [List.length_append, List.length_cons, List.length_nil, List.append_assoc, List.cons_append,
    List.nil_append] at hbound hdepth ⊢
  rw [← List.append_assoc g]
  obtain ⟨d, rfl⟩ : ∃ d', d = d' + 1 := ⟨d - 1, by omega⟩
  have hconst := @Cursor.at_word scope.bound n b g "const".toList
    (g₀ ++ (w ++ (g₁ ++ '=' :: (g₂ ++ (text ++ (g₃ ++ ';' :: rest)))))) hg isWord_const (hg₀.endsWord _) (by omega)
  have hname := @Cursor.at_word scope.bound (n + g.length + "const".toList.length) _ g₀ w
    (g₁ ++ '=' :: (g₂ ++ (text ++ (g₃ ++ ';' :: rest)))) hg₀.gap.skips hw
    (hg₁.endsWord (by decide) (by decide) _) (by omega)
  rw [List.append_assoc] at hname
  have hequals := @Cursor.at_equals scope.bound (n + g.length + "const".toList.length + g₀.length + w.length) g₁ hg₁ g₂
    hg₂ (text ++ (g₃ ++ ';' :: rest))
  obtain ⟨tree, c', hvalue, hshape, stop, hend⟩ := @Core.exists_assignment tags (d + 1) g₂ rest text shape scope htext
    hscope g₃ hg₂.gap hg₃ (by simp only [List.length_append, List.length_cons]; omega) (by omega)
    (n + g.length + "const".toList.length + g₀.length + w.length + g₁.length + 1)
  have hloose : tree.hasLooseDefault = false := by
    rw [← hasLooseDefault_shape, hshape]
    exact htext.hasLooseDefault _ List.mem_cons_self
  obtain ⟨span, span', hread⟩ := @variableList_constant scope _ c' tree d _ hconst.lexeme hconst.sound
    (by rw [hconst.next]; exact hname.lexeme) (by rw [hconst.next]; exact hname.sound) hbinding
    (by rw [hconst.next, hname.next]; exact isMark_self hequals.lexeme)
    (by rw [hconst.next, hname.next]; exact hequals.sound)
    (by rw [hconst.next, hname.next, hequals.next]; exact hvalue) hloose (isMark_self hend.lexeme) hend.sound
  rw [hend.next] at hread
  refine ⟨hconst.lexeme, hconst.sound, ⟨_, hbinding, by rw [hconst.next]; exact hname.lexeme⟩, _, stop, hread, ?_⟩
  simp [Tree.shape, Tree.shapes, hshape]

/-! ## Items -/

/-- An expression statement that starts with a bracket. -/
theorem Grammar.item_bracket {c c₁ : Cursor} {e : Tree} (h : c.token.lexeme = .mark "(") (hin : scope.inOperator = true)
    (hcolon : scope.awaitsColon = false) (he : rules d .assignment scope c = some (e, c₁))
    (hkind : e.kind ≠ .identifier) (hloose : e.hasLooseDefault = false)
    (hend : c₁.token.lexeme = .mark ";") (hsound : c₁.token.Sound) :
    ∃ span : Span, rules (d + 3) .item scope c =
      some (.node .expressionStatement span "" [e], c₁.next scope.bound) := by
  have hword := isWord_of_mark h
  have hcomma : isMark c₁.token "," = false := by rw [isMark_of_mark hend]; rfl
  have hexpression : bracketed (rules (d + 1) .expression) scope c = some (e, c₁) := by
    rw [run_bracketed hin hcolon]
    show expression (rules d) scope c = _
    simp [expression, run_bind_of he, hcomma]
  have hends := @run_expectSemicolon scope c₁ (by rw [isMark_of_mark hend]; rfl) hsound
  refine ⟨⟨c.token.start, (c₁.next scope.bound).lastStop⟩, ?_⟩
  have hplain : expressionStatement (rules (d + 1)) c.token.start scope c =
      some (.node .expressionStatement ⟨c.token.start, (c₁.next scope.bound).lastStop⟩ "" [e],
        c₁.next scope.bound) := by
    simp [expressionStatement, run_bind_of hexpression, eatMarkIf, hkind, hloose, run_bind_of run_faultIf_false,
      run_bind_of hends]
  -- No other statement starts with a bracket.
  have hplainDeclaration : typedDeclaration? (rules (d + 1)) c.token.start false scope c = some (none, c) := by
    simp [typedDeclaration?, hword]
  have hdeclare : atDeclare scope c = some (false, c) := by
    simp [atDeclare, hword]
  have htyped : typedStatement? (rules (d + 1)) c.token.start scope c = some (none, c) := by
    simp [typedStatement?, hword, run_bind_of hdeclare, hplainDeclaration]
  have hkeyword : keywordStatement? (rules (d + 1)) c.token.start true scope c = some (none, c) := by
    rw [keywordStatement?, token_bind_run, h]
    rfl
  have hasync : atAsyncFunction scope c = some (false, c) := by
    simp [atAsyncFunction, hword]
  have hlet : atLet scope c = some (false, c) := by
    simp [atLet, hword]
  have husing : atUsing scope c = some (false, c) := by
    simp [atUsing, ahead, hword, expectWord]
  have hstatement : rules (d + 2) (.statement true) scope c = some (.node .expressionStatement
      ⟨c.token.start, (c₁.next scope.bound).lastStop⟩ "" [e], c₁.next scope.bound) := by
    show statement (rules (d + 1)) true scope c = _
    simp [statement, isMark_of_mark h, run_bind_of htyped, run_bind_of hkeyword, run_bind_of hasync,
      run_bind_of hlet, run_bind_of husing, hplain]
  show item (rules (d + 2)) scope c = _
  simp [item, hword, isMark_of_mark h, hstatement]

theorem Core.step_kind {category : Category} (h : Core tags category text shapes) :
    category = .steps → ∀ step ∈ shapes, step.kind ≠ .identifier := by
  induction h with
  | nothing => exact fun _ => List.forall_mem_nil _
  | memberStep _ _ _ _ ih => exact fun _ => List.forall_mem_cons.mpr ⟨by simp [Shape.kind], ih rfl⟩
  | indexStep _ _ _ _ _ _ ih => exact fun _ => List.forall_mem_cons.mpr ⟨by simp [Shape.kind], ih rfl⟩
  | callStep _ _ _ _ ih => exact fun _ => List.forall_mem_cons.mpr ⟨by simp [Shape.kind], ih rfl⟩
  | _ =>
      intro heq
      cases heq

theorem IsWord.head?_ne (h : IsWord w) (hc : isIdentifierStart c = false) (s : List Char) :
    (w ++ s).head? ≠ some c := by
  obtain ⟨d, tail, rfl, hstart, _⟩ := h
  rintro ⟨⟩
  rw [hc] at hstart
  cases hstart

/-- No name starts with a bracket. -/
theorem Core.kind_ne_identifier (h : Core tags .value text [shape]) (hbracket : text.head? = some '(') :
    shape.kind ≠ .identifier := by
  have hstart : isIdentifierStart '(' = false := by decide
  cases h with
  | @operand text rest base steps htext hsteps =>
      refine foldl_behind_induction (motive := fun s => s.kind ≠ .identifier) ?_ fun step hstep base _ => ?_
      · cases htext with
        | name hw => exact absurd hbracket (hw.head?_ne hstart rest)
        | literal hw => exact absurd hbracket (hw.head?_ne hstart rest)
        | _ => simp [Shape.kind]
      · rw [kind_behind]
        exact hsteps.step_kind rfl step hstep
  | tagged _ htext =>
      obtain ⟨k, rfl, _⟩ := htext.exists_angle
      cases hbracket
  | _ => simp [Shape.kind]

/-- A constant that is not exported. -/
theorem Grammar.item_variables {c c' : Cursor} {e : Tree} (h : c.token.lexeme = .word "const" false)
    (hname : (c.next scope.bound).token.lexeme = .word name false) (hbinding : BindingWord name)
    (hvariables : variableList (rules d) scope c = some (e, c')) : rules (d + 2) .item scope c = some (e, c') := by
  have hword := isWord_of_word h
  have hmark := isMark_of_word h
  have henum : isWord (c.next scope.bound).token "enum" = false := by
    rw [isWord_of_word hname, beq_eq_false_iff_ne]
    exact hbinding.ne_of_reserved rfl
  have hdeclare : atDeclare scope c = some (false, c) := by simp [atDeclare, hword]
  have hdeclaration : typedDeclaration? (rules d) c.token.start false scope c = some (none, c) := by
    simp [typedDeclaration?, hword]
  have htyped : typedStatement? (rules d) c.token.start scope c = some (none, c) := by
    simp [typedStatement?, hword, henum, run_bind_of hdeclare, hdeclaration]
  have hkeyword : keywordStatement? (rules d) c.token.start true scope c = some (some e, c') := by
    simp only [keywordStatement?, token_bind_run, h]
    simp [run_map, hvariables]
  have hstatement : rules (d + 1) (.statement true) scope c = some (e, c') := by
    show statement (rules d) true scope c = _
    simp [statement, hmark, run_bind_of htyped, run_bind_of hkeyword]
  show item (rules (d + 1)) scope c = _
  simp [item, hword, hmark, hstatement]

/-- An item of the syntax is read up to its own end. -/
theorem CoreItem.reads (h : CoreItem tags text shape) (hfeatures : features.Allow tags) (hg : IsGap g)
    (hbound : (g ++ text ++ rest).length < bound)
    (hdepth : 64 * text.length ≤ depth) (n : Nat) :
    (Cursor.front bound (g ++ text ++ rest) n).token.lexeme ≠ .done ∧
      ∃ tree stop, rules depth .item (moduleScope features bound) (.front bound (g ++ text ++ rest) n) =
        some (tree, .front bound rest stop) ∧ tree.shape = shape := by
  cases h with
  | «import» h => exact h.readsItem rest bound depth n g _ hg.skips hbound hdepth
  | constant h =>
      have hlength : 0 < text.length := by
        cases h
        simp
      obtain ⟨d, rfl⟩ : ∃ d, depth = d + 2 := ⟨depth - 2, by omega⟩
      obtain ⟨hconst, hsound, ⟨name, hbinding, hname⟩, tree, stop, hread, hshape⟩ :=
        @CoreConstant.exists_variables tags d g rest text shape (moduleScope features bound) h
          ⟨rfl, hfeatures⟩ _ hg.skips hbound (by omega) n
      exact ⟨hsound.ne_done, tree, stop, item_variables hconst hname hbinding hread, hshape⟩
  | @exported g₁ text shape hg₁ h =>
      have hsize : "export".toList.length = 6 := rfl
      simp only [List.length_append, List.append_assoc] at hbound hdepth ⊢
      rw [← List.append_assoc g]
      obtain ⟨d, rfl⟩ : ∃ d, depth = d + 1 := ⟨depth - 1, by omega⟩
      have hexport := @Cursor.at_word bound n _ g "export".toList (g₁ ++ (text ++ rest)) hg.skips isWord_export
        (hg₁.endsWord _) (by omega)
      obtain ⟨hconst, hsound, ⟨name, hbinding, hname⟩, tree, stop, hread, hshape⟩ :=
        @CoreConstant.exists_variables tags d g₁ rest text _ (moduleScope features bound) h
          ⟨rfl, hfeatures⟩ _ hg₁.gap.skips
          (by simp only [List.length_append, moduleScope_bound]; omega) (by omega)
            (n + g.length + "export".toList.length)
      rw [List.append_assoc, moduleScope_bound, ← hexport.next] at hconst hname hread
      refine ⟨hexport.sound.ne_done, _, stop, item_constant hexport.lexeme hexport.sound hconst hname
        hbinding hread, ?_⟩
      simp [Tree.shape, Tree.shapes, hshape]
  | @default g₁ g₂ g₃ text shape hg₁ hg₂ htext hbrace hg₃ =>
      have hsize : "export".toList.length = 6 ∧ "default".toList.length = 7 := ⟨rfl, rfl⟩
      simp only [List.length_append, List.append_assoc, List.cons_append, List.nil_append,
        List.length_cons] at hbound hdepth ⊢
      rw [← List.append_assoc g]
      obtain ⟨d, rfl⟩ : ∃ d, depth = d + 1 := ⟨depth - 1, by omega⟩
      obtain ⟨k, rfl⟩ : ∃ k, text = '\x7b' :: k := by
        cases text with
        | nil => cases hbrace
        | cons c k => exact ⟨k, by rw [Option.some.inj hbrace]⟩
      have hends := hg₂.endsWord (c := '\x7b') (by decide) (by decide) (k ++ (g₃ ++ ';' :: rest))
      have hexport := @Cursor.at_word bound n _ g "export".toList
        (g₁ ++ ("default".toList ++ (g₂ ++ ('\x7b' :: k ++ (g₃ ++ ';' :: rest))))) hg.skips isWord_export
        (hg₁.endsWord _) (by omega)
      have hdefault := @Cursor.at_word bound (n + g.length + "export".toList.length) _ g₁ "default".toList
        (g₂ ++ ('\x7b' :: k ++ (g₃ ++ ';' :: rest))) hg₁.gap.skips isWord_default hends (by omega)
      rw [List.append_assoc] at hdefault
      have hopen := @Cursor.at_mark bound (n + g.length + "export".toList.length + g₁.length + "default".toList.length)
        '\x7b' g₂ (k ++ (g₃ ++ ';' :: rest)) hg₂ (by decide)
      obtain ⟨tree, c', hvalue, hshape, stop, hend⟩ := @Core.exists_assignment tags d g₂ rest _ shape
        (moduleScope features bound) htext ⟨rfl, hfeatures⟩ g₃ hg₂ hg₃
          (by simp only [List.length_append, List.length_cons, moduleScope_bound] at hbound ⊢; omega)
        (by omega) (n + g.length + "export".toList.length + g₁.length + "default".toList.length)
      have hitem := @item_default (moduleScope features bound) _ c' tree (rules d) hexport.lexeme hexport.sound
        (by rw [moduleScope_bound, hexport.next]; exact hdefault.lexeme)
        (by rw [moduleScope_bound, hexport.next]; exact hdefault.sound)
        (by rw [moduleScope_bound, hexport.next, hdefault.next]; exact isMark_self hopen.lexeme) rfl rfl
        (by rw [moduleScope_bound, hexport.next, hdefault.next]; exact hvalue) (isMark_self hend.lexeme) hend.sound
      rw [hend.next] at hitem
      refine ⟨hexport.sound.ne_done, _, stop, hitem, ?_⟩
      simp [Tree.shape, Tree.shapes, hshape]
  | @expression g₁ text shape htext hbracket hg₁ =>
      simp only [List.length_append, List.append_assoc, List.cons_append, List.nil_append,
        List.length_cons] at hbound hdepth ⊢
      obtain ⟨k, rfl⟩ : ∃ k, text = '(' :: k := by
        cases text with
        | nil => cases hbracket
        | cons c k => exact ⟨k, by rw [Option.some.inj hbracket]⟩
      obtain ⟨d, rfl⟩ : ∃ d, depth = d + 3 := ⟨depth - 3, by simp only [List.length_cons] at hdepth; omega⟩
      have hopen := @Cursor.at_mark bound n '(' g (k ++ (g₁ ++ ';' :: rest)) hg (by decide)
      obtain ⟨tree, c', hvalue, hshape, stop, hend⟩ := @Core.exists_assignment tags d g rest _ shape
        (moduleScope features bound) htext ⟨rfl, hfeatures⟩ g₁ hg hg₁
          (by simp only [List.length_append, List.length_cons, moduleScope_bound] at hbound ⊢; omega)
        (by omega) n
      have hkind : tree.kind ≠ .identifier := by
        rw [← kind_shape, hshape]
        exact htext.kind_ne_identifier hbracket
      have hloose : tree.hasLooseDefault = false := by
        rw [← hasLooseDefault_shape, hshape]
        exact htext.hasLooseDefault _ List.mem_cons_self
      obtain ⟨span, hitem⟩ := @item_bracket d (moduleScope features bound) _ c' tree hopen.lexeme rfl rfl hvalue hkind
        hloose hend.lexeme hend.sound
      rw [hend.next] at hitem
      refine ⟨hopen.sound.ne_done, _, stop, hitem, ?_⟩
      simp [Tree.shape, Tree.shapes, hshape]

/-! ## Modules -/

theorem CoreItem.length_pos (h : CoreItem tags text shape) : 0 < text.length := by
  cases h with
  | «import» h => cases h <;> simp
  | constant h =>
      cases h
      simp
  | exported | default => simp
  | expression =>
      simp only [List.length_append, List.length_singleton]
      omega

/-- The items of a module of the syntax are read up to the end. -/
theorem CoreModule.exists_repeated (h : CoreModule tags text shapes) (hfeatures : features.Allow tags)
    (hbound : text.length < bound)
    (hdepth : 64 * text.length ≤ depth) (n : Nat) : ∃ es rest stop,
      Repeated (moduleScope features bound) atEnd (rules depth .item) (.front bound text n) es
        (.front bound rest stop) ∧
        es.map Tree.shape = shapes ∧ es.length ≤ text.length := by
  induction h generalizing n with
  | @nil g hg =>
      refine ⟨[], g, n, .nil ?_, rfl, Nat.zero_le _⟩
      rw [run_atEnd, Cursor.front, Token.read_end hg.skips]
      rfl
  | @cons g text rest shape shapes hg htext _ ih =>
      have hpos := htext.length_pos
      simp only [List.length_append] at hbound hdepth
      rw [← List.append_assoc]
      obtain ⟨hgoes, tree, stop, hread, rfl⟩ := @CoreItem.reads tags features bound depth g rest text _
        htext hfeatures hg
        (by simp only [List.length_append]; omega) (by omega) n
      obtain ⟨es, rest', stop', hes, rfl, hcount⟩ := ih (by omega) (by omega) stop
      refine ⟨tree :: es, rest', stop', .cons ?_ hread hes, rfl, ?_⟩
      · rw [run_atEnd, beq_eq_false_iff_ne.mpr hgoes]
      · simp only [List.length_append, List.length_cons]
        omega

theorem CoreItem.head?_ne (h : CoreItem tags text shape) (rest : List Char) : (text ++ rest).head? ≠ some '#' := by
  cases h with
  | «import» h => cases h <;> exact fun heq => by cases heq
  | constant h =>
      cases h
      exact fun heq => by cases heq
  | expression _ hbracket =>
      intro heq
      rw [List.append_assoc, List.head?_append, hbracket] at heq
      cases heq
  | exported | default => exact fun heq => by cases heq

theorem CoreModule.head?_ne (h : CoreModule tags text shapes) : text.head? ≠ some '#' := by
  have hstarts : '#' ∉ '/' :: blanks := by decide
  cases h with
  | nil hg => exact fun heq => hstarts (hg.head_mem _ heq)
  | @cons g _ _ _ _ hg htext =>
      cases g with
      | nil => exact htext.head?_ne _
      | cons d g => exact fun heq => hstarts (hg.head_mem _ heq)

/-- The reader of modules reads those of the syntax as what they say. -/
theorem readsCore_parse? : ReadsCore Module.parse? := by
  intro tags features text shapes hfeatures h
  obtain ⟨es, rest, stop, hes, hshapes, hcount⟩ := @CoreModule.exists_repeated tags features (text.length + 1)
    (depthBound text) text shapes h hfeatures (by omega) (by rw [depthBound]; omega) 0
  exact ⟨es, Module.parse?_of_repeated (skipInterpreter_of_head? h.head?_ne) hes hcount, hshapes⟩

/-! ## Expressions -/

variable {dialect : Dialect} {context : String} {f : Fragment} {parse? : ModuleReader}

/-- An expression of the syntax, up to the end of its line. -/
theorem coreModule_wrap (h : Core tags (.list .value false) (text ++ ['\n']) shapes) (hne : shapes ≠ []) :
    CoreModule tags (Fragment.wrap text) [.node .expressionStatement "" [.node .paren "" [Shape.joined shapes]]] := by
  have hinner := h.gap_front isGap_feed
  have hitem : CoreItem tags ('(' :: ('\n' :: (text ++ ['\n']) ++ [')']) ++ [] ++ ([] ++ [';']))
      (.node .expressionStatement "" [.node .paren "" [Shape.joined shapes]]) :=
    .expression (.operand (.paren hinner hne) .nothing) rfl .nil
  have hmodule := CoreModule.cons .nil hitem (.nil .nil)
  simpa [Fragment.wrap] using hmodule

theorem exists_expressionOf? {items : List Tree}
    (h : items.map Tree.shape = [.node .expressionStatement "" [.node .paren "" [shape]]]) :
    ∃ e, Fragment.expressionOf? items = some e ∧ e.shape = shape := by
  obtain ⟨item, rfl, hitem⟩ := List.map_eq_singleton_iff.mp h
  obtain ⟨kind, span, name, parts⟩ := item
  simp only [Tree.shape, shapes_eq_map, Shape.node.injEq, List.map_eq_singleton_iff] at hitem
  obtain ⟨rfl, _, paren, rfl, hparen⟩ := hitem
  obtain ⟨kind, span', name', parts⟩ := paren
  simp only [Tree.shape, shapes_eq_map, Shape.node.injEq, List.map_eq_singleton_iff] at hparen
  obtain ⟨rfl, _, e, rfl, rfl⟩ := hparen
  exact ⟨e, rfl, rfl⟩

namespace Fragment

/-- Every reader of the syntax accepts the expressions of the syntax. -/
theorem exists_parse_of_core (hparse : ReadsCore parse?) (htags : dialect.features.Allow tags) (hne : trim text ≠ [])
    (hcore : Core tags (.list .value false) (trim text ++ ['\n']) shapes) (hshapes : shapes ≠ []) :
    ∃ f, (∀ context, parseWith parse? text dialect context = .ok f) ∧ f.source = trim text ∧
      f.tree.shape = .joined shapes := by
  obtain ⟨items, hitems, hmap⟩ := hparse htags (coreModule_wrap hcore hshapes)
  obtain ⟨e, he, hshape⟩ := exists_expressionOf? hmap
  refine ⟨⟨trim text, e⟩, fun context => parseWith_eq_ok_iff.mpr ⟨hne, ?_, rfl⟩, rfl, hshape⟩
  rw [hitems, Option.bind_some, he]

/-- They are accepted as what they say. -/
theorem shape_tree (hparse : ReadsCore parse?) (htags : dialect.features.Allow tags)
    (h : parseWith parse? text dialect context = .ok f)
    (hcore : Core tags (.list .value false) (f.source ++ ['\n']) shapes) (hshapes : shapes ≠ []) :
    f.tree.shape = .joined shapes := by
  obtain ⟨hne, htree, hsource⟩ := parseWith_eq_ok_iff.mp h
  rw [hsource] at hcore
  obtain ⟨g, hg, _, hshape⟩ := @exists_parse_of_core tags text shapes dialect parse? hparse htags hne hcore hshapes
  rw [hg] at h
  cases h
  exact hshape

end Fragment

end Script
end StoryDocs
