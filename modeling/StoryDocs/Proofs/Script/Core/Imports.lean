import StoryDocs.Proofs.Script.Core.Tags
import StoryDocs.Proofs.Script.Items

/-!
# Imports

The syntax of imports: what an import names, and the module it names it from.  Gaps may stand between all tokens, and
an import ends with a semicolon.
-/

namespace StoryDocs
namespace Script

open Text Grammar

variable {bound n stop : Nat} {c : Char} {g g' rest s text inner w : List Char} {shape : Shape} {shapes : List Shape}
  {scope : Scope} {rs : Rules} {name : String}

/-! ## The syntax -/

/-- A name in the braces of an import. -/
inductive ImportedName : List Char → Shape → Prop
  | plain {w : List Char} (hw : IsWord w) (hbinding : BindingWord (String.ofList w))
    (htype : String.ofList w ≠ "type") :
      ImportedName w (.node .importSpecifier "" [.node .name (String.ofList w) []])
  | renamed {w w' g g' : List Char} (hw : IsWord w) (htype : String.ofList w ≠ "type") (hg : IsSpace g)
      (hg' : IsSpace g') (hw' : IsWord w') (hbinding : BindingWord (String.ofList w')) :
      ImportedName (w ++ (g ++ ("as".toList ++ (g' ++ w'))))
        (.node .importSpecifier "" [.node .name (String.ofList w) [], .node .identifier (String.ofList w') []])

/-- Names with commas between them, and perhaps one behind the last. -/
inductive ImportedNames : List Char → List Shape → Prop
  | nil {g : List Char} (hg : IsGap g) : ImportedNames g []
  | last {g g' text : List Char} {shape : Shape} (hg : IsGap g) (htext : ImportedName text shape) (hg' : IsGap g') :
      ImportedNames (g ++ (text ++ g')) [shape]
  | cons {g g' text rest : List Char} {shape : Shape} {shapes : List Shape} (hg : IsGap g)
      (htext : ImportedName text shape) (hg' : IsGap g') (hrest : ImportedNames rest shapes) :
      ImportedNames (g ++ (text ++ (g' ++ ',' :: rest))) (shape :: shapes)

/-- What an import names besides its default. -/
inductive ImportedGroup : List Char → List Shape → Prop
  | all {g g' w : List Char} (hg : IsGap g) (hg' : IsSpace g') (hw : IsWord w)
      (hbinding : BindingWord (String.ofList w)) :
      ImportedGroup ('*' :: (g ++ ("as".toList ++ (g' ++ w))))
        [.node .importSpecifier "*" [.node .identifier (String.ofList w) []]]
  | names {inner : List Char} {shapes : List Shape} (hinner : ImportedNames inner shapes) :
      ImportedGroup ('\x7b' :: (inner ++ ['\x7d'])) shapes

/-- The words in front of a name that are not the name of a default. -/
def importLeads : List String := ["type", "source", "defer"]

/-- What an import names. -/
inductive ImportClause : List Char → List Shape → Prop
  | group {text : List Char} {shapes : List Shape} (h : ImportedGroup text shapes) : ImportClause text shapes
  | default {w : List Char} (hw : IsWord w) (hbinding : BindingWord (String.ofList w))
      (hlead : String.ofList w ∉ importLeads) : ImportClause w [.node .identifier (String.ofList w) []]
  | both {w g g' text : List Char} {shapes : List Shape} (hw : IsWord w) (hbinding : BindingWord (String.ofList w))
      (hlead : String.ofList w ∉ importLeads) (hg : IsGap g) (hg' : IsGap g') (h : ImportedGroup text shapes) :
      ImportClause (w ++ (g ++ ',' :: (g' ++ text))) (.node .identifier (String.ofList w) [] :: shapes)

/-- An import with its end. -/
inductive CoreImport : List Char → Shape → Prop
  | bare {g g' : List Char} {quote : Char} (hg : IsGap g) (hquote : IsQuote quote) (v : List Char) (hg' : IsGap g') :
      CoreImport ("import".toList ++ (g ++ (written quote v ++ (g' ++ [';']))))
        (.node .importDecl "" [.node .string (String.ofList v) []])
  | names {g g₁ g₂ g₃ clause : List Char} {shapes : List Shape} {quote : Char} (hg : IsSpace g)
      (hclause : ImportClause clause shapes) (hg₁ : IsSpace g₁) (hg₂ : IsGap g₂) (hquote : IsQuote quote)
      (v : List Char) (hg₃ : IsGap g₃) :
      CoreImport ("import".toList ++ (g ++
        (clause ++ (g₁ ++ ("from".toList ++ (g₂ ++ (written quote v ++ (g₃ ++ [';']))))))))
        (.node .importDecl "" (shapes ++ [.node .string (String.ofList v) []]))

/-! ## Tokens -/

/-- A star in front of a word. -/
theorem Cursor.at_star (hg : IsGap g) (hs : ∀ c ∈ s.head?, c ≠ '*' ∧ c ≠ '=') :
    (Cursor.front bound (g ++ '*' :: s) n).At bound (.mark "*") s (n + g.length + 1) := by
  have hscan : scanMark ('*' :: s) = some ("*", s) := by
    cases s with
    | nil => rfl
    | cons c s =>
        obtain ⟨hstar, hequals⟩ := hs c rfl
        simp [scanMark, longMarks, scanMark.dropMark, shortMarks, Ne.symm hstar, Ne.symm hequals]
  have hread := @Token.read_sign bound n g s ['*'] hg (by decide) hscan
  rw [List.append_assoc] at hread
  exact at_of_read hread (by simp) (by simp)

namespace Grammar

variable {c c₁ c₂ c₃ c' : Cursor} {e : Tree} {es : List Tree}

/-! ## Names -/

theorem importSpecifier_plain (hlexeme : c.token.lexeme = .word name false) (hsound : c.token.Sound)
    (hbinding : BindingWord name) (htype : name ≠ "type") (hnext : (c.next scope.bound).token.Closes) :
    importSpecifier false scope c = some (.node .importSpecifier ⟨c.token.start, (c.next scope.bound).lastStop⟩ ""
      [.node .name ⟨c.token.start, c.token.stop⟩ name []], c.next scope.bound) := by
  have hstring : atString scope c = some (false, c) := by simp [atString, hlexeme]
  have hfirst : anyName scope c = some (.node .name ⟨c.token.start, c.token.stop⟩ name [], c.next scope.bound) := by
    simp only [anyName, token_bind_run, hlexeme, advance_bind_run hsound, run_pure]
  have hentry : typeEntry bindingName (.node .name ⟨c.token.start, c.token.stop⟩ name []) scope
      (c.next scope.bound) =
        some (([.node .name ⟨c.token.start, c.token.stop⟩ name []], false, false), c.next scope.bound) := by
    simp [typeEntry, Tree.name, htype]
  have has : isWord (c.next scope.bound).token "as" = false := by
    obtain ⟨m, _, hmark⟩ := hnext
    exact isWord_of_mark hmark _
  simp [importSpecifier, run_bind_of hstring, run_bind_of hfirst, run_bind_of hentry,
    run_bind_of run_faultIf_false, has,
    hbinding.not_reserved, Tree.name]

theorem importSpecifier_renamed {name' : String} (hlexeme : c.token.lexeme = .word name false) (hsound : c.token.Sound)
    (htype : name ≠ "type") (has : (c.next scope.bound).token.lexeme = .word "as" false)
    (hsound₁ : (c.next scope.bound).token.Sound) (hnext : (c.next scope.bound).next scope.bound = c₂)
    (hname : c₂.token.lexeme = .word name' false) (hsound₂ : c₂.token.Sound) (hbinding : BindingWord name') :
    importSpecifier false scope c = some (.node .importSpecifier ⟨c.token.start, (c₂.next scope.bound).lastStop⟩ ""
      [.node .name ⟨c.token.start, c.token.stop⟩ name [], .node .identifier ⟨c₂.token.start, c₂.token.stop⟩ name' []],
        c₂.next scope.bound) := by
  have hstring : atString scope c = some (false, c) := by simp [atString, hlexeme]
  have hfirst : anyName scope c = some (.node .name ⟨c.token.start, c.token.stop⟩ name [], c.next scope.bound) := by
    simp only [anyName, token_bind_run, hlexeme, advance_bind_run hsound, run_pure]
  have hentry : typeEntry bindingName (.node .name ⟨c.token.start, c.token.stop⟩ name []) scope
      (c.next scope.bound) =
        some (([.node .name ⟨c.token.start, c.token.stop⟩ name []], false, false), c.next scope.bound) := by
    simp [typeEntry, Tree.name, htype]
  have hword : isWord (c.next scope.bound).token "as" = true := by rw [isWord_of_word has]; rfl
  have heat := @run_eatWord scope (c.next scope.bound) "as" hword hsound₁
  have hbound := @bindingName_word scope c₂ name' hname hsound₂ hbinding
  rw [hnext] at heat
  simp [importSpecifier, run_bind_of hstring, run_bind_of hfirst, run_bind_of hentry, run_bind_of run_faultIf_false,
    hword, advance_bind_run hsound₁, hnext, run_bind_of hbound]

theorem namespaceSpecifier_word (has : c.token.lexeme = .word "as" false) (hsound : c.token.Sound)
    (hnext : c.next scope.bound = c₁) (hname : c₁.token.lexeme = .word name false) (hsound₁ : c₁.token.Sound)
    (hbinding : BindingWord name) (start : Nat) : namespaceSpecifier start scope c =
      some (.node .importSpecifier ⟨start, (c₁.next scope.bound).lastStop⟩ "*"
        [.node .identifier ⟨c₁.token.start, c₁.token.stop⟩ name []], c₁.next scope.bound) := by
  have hword := @run_expectWord scope c "as" (by rw [isWord_of_word has]; rfl) hsound
  have hbound := @bindingName_word scope c₁ name hname hsound₁ hbinding
  rw [hnext] at hword
  simp [namespaceSpecifier, run_bind_of hword, run_bind_of hbound]

/-! ## Clauses -/

/-- The names of an import besides its default, as they are read. -/
inductive Groups (scope : Scope) : Cursor → List Tree → Cursor → Prop
  | all {c c' : Cursor} {e : Tree} (hstar : c.token.lexeme = .mark "*") (hsound : c.token.Sound)
      (h : namespaceSpecifier c.token.start scope (c.next scope.bound) = some (e, c')) : Groups scope c [e] c'
  | names {c c' : Cursor} {es : List Tree} (hopen : c.token.lexeme = .mark "\x7b")
      (h : specifiers (importSpecifier false) scope c = some (es, c')) : Groups scope c es c'

theorem Groups.lexeme (h : Groups scope c es c') : ∃ m ∈ ["*", "\x7b"], c.token.lexeme = .mark m := by
  cases h with
  | all hstar => exact ⟨"*", by simp, hstar⟩
  | names hopen => exact ⟨"\x7b", by simp, hopen⟩

/-- A name that leads nothing is that of the default. -/
theorem defaultImport_plain (hname : e.name ∉ importLeads) (c : Cursor) :
    defaultImport e scope c = some ((.plain, [e]), c) := by
  obtain ⟨b, hlook⟩ : ∃ b, precedesDefault scope c = some (b, c) := by
    cases hreference : isReference c.token with
    | false => exact ⟨false, by simp [precedesDefault, hreference]⟩
    | true => exact ⟨!isWord c.token "from" || isWord (c.next scope.bound).token "from", by
        simp [precedesDefault, hreference]⟩
  simp only [importLeads, List.mem_cons, List.not_mem_nil, or_false, not_or] at hname
  simp [defaultImport, hname, run_bind_of hlook, run_map, hlook]

theorem lead_beq : (ImportLead.plain == ImportLead.typeOnly) = false := rfl

/-- An import of a group of names. -/
theorem importTail_group {start : Nat} {source : List Tree} (h : Groups scope c es c₁)
    (hclause : fromClause rs scope c₁ = some (source, c')) : importTail rs start scope c =
      some (.node .importDecl ⟨start, c'.lastStop⟩ "" (es ++ source), c') := by
  obtain ⟨m, _, hlexeme⟩ := h.lexeme
  have hstring : atString scope c = some (false, c) := by simp [atString, hlexeme]
  have hreference : isReference c.token = false := by rw [isReference, hlexeme]
  cases h with
  | all hstar hsound h =>
      simp [importTail, run_bind_of hstring, hreference, eatMarkIf, isMark_self hstar, advance_bind_run hsound,
        run_bind_of h, run_bind_of hclause]
  | names hopen h =>
      simp [importTail, run_bind_of hstring, hreference, eatMarkIf, isMark_of_mark hopen, lead_beq, run_bind_of h,
        run_bind_of hclause]

/-- An import of a default. -/
theorem importTail_default {start : Nat} {source : List Tree} (hlexeme : c.token.lexeme = .word name false)
    (hsound : c.token.Sound) (hbinding : BindingWord name) (hlead : name ∉ importLeads)
    (hfrom : (c.next scope.bound).token.lexeme = .word "from" false)
    (hclause : fromClause rs scope (c.next scope.bound) = some (source, c')) : importTail rs start scope c =
      some (.node .importDecl ⟨start, c'.lastStop⟩ ""
        (.node .identifier ⟨c.token.start, c.token.stop⟩ name [] :: source), c') := by
  have hstring : atString scope c = some (false, c) := by simp [atString, hlexeme]
  have hreference : isReference c.token = true := by simp [isReference, hlexeme, hbinding.not_reserved]
  have hbound := @bindingName_word scope c name hlexeme hsound hbinding
  have hdefault := @defaultImport_plain scope (.node .identifier ⟨c.token.start, c.token.stop⟩ name []) hlead
    (c.next scope.bound)
  simp [importTail, run_bind_of hstring, hreference, run_bind_of hbound, run_bind_of hdefault, Tree.name,
    isMark_of_word hfrom, isWord_of_word hfrom, eatMarkIf, run_bind_of hclause]

/-- An import of a default and a group of names. -/
theorem importTail_both {start : Nat} {source : List Tree} (hlexeme : c.token.lexeme = .word name false)
    (hsound : c.token.Sound) (hbinding : BindingWord name) (hlead : name ∉ importLeads)
    (hcomma : (c.next scope.bound).token.lexeme = .mark ",") (hsound₁ : (c.next scope.bound).token.Sound)
    (hnext : (c.next scope.bound).next scope.bound = c₂) (h : Groups scope c₂ es c₃)
    (hclause : fromClause rs scope c₃ = some (source, c')) : importTail rs start scope c =
      some (.node .importDecl ⟨start, c'.lastStop⟩ ""
        (.node .identifier ⟨c.token.start, c.token.stop⟩ name [] :: (es ++ source)), c') := by
  have hstring : atString scope c = some (false, c) := by simp [atString, hlexeme]
  have hreference : isReference c.token = true := by simp [isReference, hlexeme, hbinding.not_reserved]
  have hbound := @bindingName_word scope c name hlexeme hsound hbinding
  have hdefault := @defaultImport_plain scope (.node .identifier ⟨c.token.start, c.token.stop⟩ name []) hlead
    (c.next scope.bound)
  have hseparator := @run_expectMark scope (c.next scope.bound) "," (isMark_self hcomma) hsound₁
  rw [hnext] at hseparator
  cases h with
  | all hstar hsound h =>
      simp [importTail, run_bind_of hstring, hreference, run_bind_of hbound, run_bind_of hdefault, Tree.name,
        isMark_of_mark hcomma, isWord_of_mark hcomma, run_bind_of hseparator, eatMarkIf, isMark_self hstar,
        advance_bind_run hsound, run_bind_of h, run_bind_of hclause]
  | names hopen h =>
      simp [importTail, run_bind_of hstring, hreference, run_bind_of hbound, run_bind_of hdefault, Tree.name,
        isMark_of_mark hcomma, isWord_of_mark hcomma, run_bind_of hseparator, eatMarkIf, isMark_of_mark hopen, lead_beq,
        run_bind_of h, run_bind_of hclause]

/-! ## Sources -/

theorem sourceTail_string {value : String} (hvalue : c.token.lexeme = .string value) (hsound : c.token.Sound)
    (hnext : c.next scope.bound = c₁) (hend : c₁.token.lexeme = .mark ";") (hsound₁ : c₁.token.Sound) :
    sourceTail rs scope c = some ([.node .string ⟨c.token.start, c.token.stop⟩ value []], c₁.next scope.bound) := by
  have hsemicolon := @run_expectSemicolon scope c₁ (isMark_self hend) hsound₁
  have hattributes : importAttributes? rs scope c₁ = some ([], c₁) := by
    simp [importAttributes?, isWord_of_mark hend]
  have hread : stringToken scope c = some (.node .string ⟨c.token.start, c.token.stop⟩ value [], c₁) := by
    simp [stringToken, hvalue, run_map, run_advance hsound, hnext]
  simp [sourceTail, run_bind_of hread, run_bind_of hattributes, run_map, hsemicolon]

theorem fromClause_source {source : List Tree} (hfrom : c.token.lexeme = .word "from" false) (hsound : c.token.Sound)
    (h : sourceTail rs scope (c.next scope.bound) = some (source, c')) :
    fromClause rs scope c = some (source, c') := by
  have hword := @run_expectWord scope c "from" (by rw [isWord_of_word hfrom]; rfl) hsound
  simp [fromClause, run_bind_of hword, h]

/-- An import of nothing but a module. -/
theorem importTail_bare {value : String} {start : Nat} {source : List Tree} (hvalue : c.token.lexeme = .string value)
    (h : sourceTail rs scope c = some (source, c')) :
    importTail rs start scope c = some (.node .importDecl ⟨start, c'.lastStop⟩ "" source, c') := by
  have hstring : atString scope c = some (true, c) := by simp [atString, hvalue]
  simp [importTail, run_bind_of hstring, run_bind_of h]

/-- An import, from what stands behind its keyword. -/
theorem item_import {r : List Char} (himport : c.At scope.bound (.word "import" false) r n)
    (hplain : ∀ m ∈ [".", "("], isMark (Cursor.front scope.bound r n).token m = false)
    (htail : importTail rs c.token.start scope (.front scope.bound r n) = some (e, c')) :
    item rs scope c = some (e, c') := by
  have hword := @run_expectWord scope c "import" (by rw [isWord_of_word himport.lexeme]; rfl) himport.sound
  rw [himport.next] at hword
  simp only [List.forall_mem_cons, List.not_mem_nil, false_imp_iff, implies_true, and_true] at hplain
  have hitem : importItem rs scope c = some (e, c') := by
    simp [importItem, himport.next, hplain, run_bind_of hword, htail]
  simp [item, isWord_of_word himport.lexeme, hitem]

end Grammar

/-! ## Reading names -/

theorem ImportedName.reads (h : ImportedName text shape) (hg : IsGap g) (hrest : ClosesText rest)
    (hbound : text.length ≤ scope.bound) (n : Nat) :
    (∃ name, (Cursor.front scope.bound (g ++ text ++ rest) n).token.lexeme = .word name false) ∧
      ∃ e stop, importSpecifier false scope (.front scope.bound (g ++ text ++ rest) n) =
        some (e, .front scope.bound rest stop) ∧ e.shape = shape := by
  cases h with
  | plain hw hbinding htype =>
      have hat := @Cursor.at_word scope.bound n _ g text rest hg.skips hw hrest.endsWord hbound
      have hread := @importSpecifier_plain scope _ _ hat.lexeme hat.sound hbinding htype
        (by rw [hat.next]; exact hrest.closes _ _)
      rw [hat.next] at hread
      exact ⟨⟨_, hat.lexeme⟩, _, _, hread, rfl⟩
  | @renamed w w' g₁ g₂ hw htype hg₁ hg₂ hw' hbinding =>
      have hsize : "as".toList.length = 2 := rfl
      simp only [List.length_append, hsize] at hbound
      have htext : g ++ (w ++ (g₁ ++ ("as".toList ++ (g₂ ++ w')))) ++ rest =
          g ++ w ++ (g₁ ++ "as".toList ++ (g₂ ++ w' ++ rest)) := by simp
      rw [htext]
      have hat := @Cursor.at_word scope.bound n _ g w (g₁ ++ "as".toList ++ (g₂ ++ w' ++ rest)) hg.skips hw
        (by rw [List.append_assoc]; exact hg₁.endsWord _) (by omega)
      have has := @Cursor.at_word scope.bound (n + g.length + w.length) _ g₁ "as".toList (g₂ ++ w' ++ rest)
        hg₁.gap.skips isWord_as (by rw [List.append_assoc]; exact hg₂.endsWord _) (by omega)
      have hname := @Cursor.at_word scope.bound (n + g.length + w.length + g₁.length + "as".toList.length) _ g₂ w' rest
        hg₂.gap.skips hw' hrest.endsWord (by omega)
      have hread := @importSpecifier_renamed scope _ _ _ _ hat.lexeme hat.sound htype
        (by rw [hat.next]; exact has.lexeme)
        (by rw [hat.next]; exact has.sound) (by rw [hat.next, has.next]) hname.lexeme hname.sound hbinding
      rw [hname.next] at hread
      exact ⟨⟨_, hat.lexeme⟩, _, _, hread, rfl⟩

/-- The names in the braces of an import are read one by one. -/
theorem ImportedNames.separated (h : ImportedNames inner shapes) (hbound : inner.length ≤ scope.bound)
    (rest : List Char)
    (n : Nat) : ∃ es g stop, Separated scope "\x7d" (importSpecifier false)
        (.front scope.bound (inner ++ '\x7d' :: rest) n) es (.front scope.bound (g ++ '\x7d' :: rest) stop) ∧
      IsGap g ∧ es.length ≤ inner.length ∧ Tree.shapes es = shapes := by
  have hclosed : ∀ (g : List Char) (n : Nat), IsGap g →
      isMark (Cursor.front scope.bound (g ++ '\x7d' :: rest) n).token "\x7d" = true := fun g n hg =>
    isMark_self (Cursor.at_mark hg (by decide)).lexeme
  induction h generalizing n with
  | nil hg => exact ⟨[], _, n, .nil (hclosed _ n hg), hg, Nat.zero_le _, rfl⟩
  | @last g g' text shape hg htext hg' =>
      simp only [List.length_append] at hbound
      simp only [List.append_assoc]
      rw [← List.append_assoc]
      have hcloses : ClosesText (g' ++ '\x7d' :: rest) := ⟨g', '\x7d', rest, hg', by decide, rfl⟩
      obtain ⟨⟨name, hname⟩, e, stop, hread, hshape⟩ := @ImportedName.reads g _ _ _ scope htext hg hcloses (by omega) n
      refine ⟨[e], g', stop, .last (isMark_of_word hname _) hread (hclosed g' stop hg'), hg', ?_, by
        rw [← hshape]
        rfl⟩
      obtain ⟨c, k, rfl⟩ : ∃ c k, text = c :: k := by
        cases htext with
        | plain hw => exact hw.imp fun c ⟨k, hk, _⟩ => ⟨k, hk⟩
        | renamed hw =>
            obtain ⟨c, k, rfl, _⟩ := hw
            exact ⟨c, _, rfl⟩
      simp
      omega
  | @cons g g' text tail shape shapes hg htext hg' _ ih =>
      simp only [List.length_append, List.length_cons] at hbound
      simp only [List.append_assoc, List.cons_append]
      rw [← List.append_assoc]
      have hcloses : ClosesText (g' ++ ',' :: (tail ++ '\x7d' :: rest)) := ⟨g', ',', _, hg', by decide, rfl⟩
      obtain ⟨⟨name, hname⟩, e, stop, hread, hshape⟩ := @ImportedName.reads g _ _ _ scope htext hg hcloses (by omega) n
      have hat := @Cursor.at_mark scope.bound stop ',' g' (tail ++ '\x7d' :: rest) hg' (by decide)
      obtain ⟨es, g'', stop', hes, hg'', hcount, rfl⟩ := ih (by omega) (stop + g'.length + 1)
      rw [← hat.next] at hes
      refine ⟨e :: es, g'', stop', .cons (isMark_of_word hname _) hread (isMark_of_other hat.lexeme (by decide))
        (isMark_self hat.lexeme) hat.sound hes, hg'', ?_, by rw [← hshape]; rfl⟩
      simp only [List.length_append, List.length_cons]
      omega

/-! ## Reading clauses -/

theorem ImportedGroup.groups (h : ImportedGroup text shapes) (hg : IsGap g) (hrest : EndsWord rest)
    (hbound : text.length ≤ scope.bound) (n : Nat) : ∃ es stop,
      Groups scope (.front scope.bound (g ++ text ++ rest) n) es (.front scope.bound rest stop) ∧
        Tree.shapes es = shapes := by
  cases h with
  | @all g₁ g₂ w hg₁ hg₂ hw hbinding =>
      have hsize : "as".toList.length = 2 := rfl
      simp only [List.length_append, List.length_cons, hsize] at hbound
      have htext : g ++ '*' :: (g₁ ++ ("as".toList ++ (g₂ ++ w))) ++ rest =
          g ++ '*' :: (g₁ ++ "as".toList ++ (g₂ ++ w ++ rest)) := by simp
      have hhead : ∀ c ∈ (g₁ ++ "as".toList ++ (g₂ ++ w ++ rest)).head?, c ≠ '*' ∧ c ≠ '=' := by
        have hstarts : ∀ d ∈ 'a' :: '/' :: blanks, d ≠ '*' ∧ d ≠ '=' := by decide
        cases g₁ with
        | nil => exact fun c hc => hstarts c (by cases hc; exact List.mem_cons_self)
        | cons d g₁ => exact fun c hc => hstarts c (List.mem_cons_of_mem _ (hg₁.head_mem c hc))
      rw [htext]
      have hstar := @Cursor.at_star scope.bound n g (g₁ ++ "as".toList ++ (g₂ ++ w ++ rest)) hg hhead
      have has := @Cursor.at_word scope.bound (n + g.length + 1) _ g₁ "as".toList (g₂ ++ w ++ rest) hg₁.skips isWord_as
        (by rw [List.append_assoc]; exact hg₂.endsWord _) (by omega)
      have hname := @Cursor.at_word scope.bound (n + g.length + 1 + g₁.length + "as".toList.length) _ g₂ w rest
        hg₂.gap.skips hw hrest (by omega)
      have hspecifier := namespaceSpecifier_word has.lexeme has.sound has.next hname.lexeme hname.sound hbinding
      rw [hname.next, ← hstar.next] at hspecifier
      exact ⟨_, _, .all hstar.lexeme hstar.sound (hspecifier _), rfl⟩
  | @names inner _ hinner =>
      simp only [List.length_append, List.length_cons] at hbound
      have htext : g ++ '\x7b' :: (inner ++ ['\x7d']) ++ rest = g ++ '\x7b' :: (inner ++ '\x7d' :: rest) := by simp
      rw [htext]
      have hopen := @Cursor.at_mark scope.bound n '\x7b' g (inner ++ '\x7d' :: rest) hg (by decide)
      obtain ⟨es, g', stop, hes, hg', hcount, rfl⟩ := @ImportedNames.separated inner _ scope hinner (by omega) rest
        (n + g.length + 1)
      have hclose := @Cursor.at_mark scope.bound stop '\x7d' g' rest hg' (by decide)
      have hopened := @run_expectMark scope _ "\x7b" (isMark_self hopen.lexeme) hopen.sound
      have hclosed := @run_expectMark scope _ "\x7d" (isMark_self hclose.lexeme) hclose.sound
      rw [hopen.next] at hopened
      rw [hclose.next] at hclosed
      refine ⟨es, stop + g'.length + 1, .names hopen.lexeme ?_, rfl⟩
      simp [specifiers, run_bind_of hopened, run_bind_of (hes.run (by omega)), run_map, hclosed]

theorem IsQuote.endsWord {quote : Char} (h : IsQuote quote) (hg : IsGap g) (s : List Char) :
    EndsWord (g ++ quote :: s) := by
  rcases h with rfl | rfl
  · exact hg.endsWord (by decide) (by decide) s
  · exact hg.endsWord (by decide) (by decide) s

/-- The module that an import names, up to its semicolon. -/
theorem sourceTail_written {quote : Char} (hquote : IsQuote quote) (hg : IsGap g) (hg' : IsGap g') (v rest : List Char)
    (hbound : (written quote v).length ≤ scope.bound) (n : Nat) :
    (Cursor.front scope.bound (g ++ (written quote v ++ (g' ++ ';' :: rest))) n).token.lexeme =
        .string (String.ofList v) ∧ ∃ e stop,
      sourceTail rs scope (.front scope.bound (g ++ (written quote v ++ (g' ++ ';' :: rest))) n) =
        some ([e], .front scope.bound rest stop) ∧ e.shape = .node .string (String.ofList v) [] := by
  have hvalue := @Cursor.at_written scope.bound n g (g' ++ ';' :: rest) quote hquote hg v hbound
  have hend := @Cursor.at_mark scope.bound (n + g.length + (written quote v).length) ';' g' rest hg' (by decide)
  have htail := @sourceTail_string scope rs _ _ _ hvalue.lexeme hvalue.sound hvalue.next hend.lexeme hend.sound
  rw [List.append_assoc] at hvalue htail
  rw [hend.next] at htail
  exact ⟨hvalue.lexeme, _, _, htail, rfl⟩

/-- The same behind its keyword. -/
theorem fromClause_written {quote : Char} {g₁ g₂ g₃ : List Char} (hg₁ : IsGap g₁) (hg₂ : IsGap g₂)
    (hquote : IsQuote quote) (hg₃ : IsGap g₃) (v rest : List Char)
    (hbound : ("from".toList ++ written quote v).length ≤ scope.bound) (n : Nat) :
    (Cursor.front scope.bound (g₁ ++ ("from".toList ++ (g₂ ++ (written quote v ++ (g₃ ++ ';' :: rest)))))
      n).token.lexeme =
        .word "from" false ∧ ∃ e stop,
      fromClause rs scope (.front scope.bound
        (g₁ ++ ("from".toList ++ (g₂ ++ (written quote v ++ (g₃ ++ ';' :: rest))))) n) =
          some ([e], .front scope.bound rest stop) ∧ e.shape = .node .string (String.ofList v) [] := by
  rw [List.length_append] at hbound
  have hfrom := @Cursor.at_word scope.bound n _ g₁ "from".toList (g₂ ++ (written quote v ++ (g₃ ++ ';' :: rest)))
    hg₁.skips isWord_from (hquote.endsWord hg₂ _) (by omega)
  obtain ⟨_, e, stop, htail, hshape⟩ := @sourceTail_written g₂ g₃ scope rs quote hquote hg₂ hg₃ v rest (by omega)
    (n + g₁.length + "from".toList.length)
  rw [← hfrom.next] at htail
  rw [List.append_assoc] at hfrom htail
  exact ⟨hfrom.lexeme, e, stop, fromClause_source hfrom.lexeme hfrom.sound htail, hshape⟩

/-- What an import names is read up to the module that it names it from. -/
theorem ImportClause.exists_tail (h : ImportClause text shapes) (hg : IsGap g) {u : List Char} {source : Shape}
    (hends : EndsWord u) (hfrom : ∀ n, (Cursor.front scope.bound u n).token.lexeme = .word "from" false)
    (hclause : ∀ n, ∃ e stop, fromClause rs scope (.front scope.bound u n) =
      some ([e], .front scope.bound rest stop) ∧ e.shape = source)
    (hbound : text.length ≤ scope.bound) (n start : Nat) :
    (∀ m ∈ [".", "("], isMark (Cursor.front scope.bound (g ++ text ++ u) n).token m = false) ∧
      ∃ e stop, importTail rs start scope (.front scope.bound (g ++ text ++ u) n) =
        some (e, .front scope.bound rest stop) ∧ e.shape = .node .importDecl "" (shapes ++ [source]) := by
  cases h with
  | group h =>
      obtain ⟨es, stop, hgroups, rfl⟩ := @ImportedGroup.groups g u text shapes scope h hg hends hbound n
      obtain ⟨e, stop', hread, rfl⟩ := hclause stop
      obtain ⟨m', hm', hlexeme⟩ := hgroups.lexeme
      refine ⟨fun m hm => isMark_of_other hlexeme ?_, _, stop', importTail_group hgroups hread, ?_⟩
      · rintro rfl
        have hmarks : ∀ m ∈ [".", "("], m ∉ ["*", "\x7b"] := by decide
        exact hmarks m' hm hm'
      · simp [Tree.shape, shapes_eq_map]
  | default hw hbinding hlead =>
      have hat := @Cursor.at_word scope.bound n _ g text u hg.skips hw hends hbound
      obtain ⟨e, stop, hread, rfl⟩ := hclause (n + g.length + text.length)
      rw [← hat.next] at hread
      refine ⟨fun m _ => isMark_of_word hat.lexeme m, _, stop,
        importTail_default hat.lexeme hat.sound hbinding hlead (by rw [hat.next]; exact hfrom _) hread, ?_⟩
      simp [Tree.shape, Tree.shapes]
  | @both w g₁ g₂ text _ hw hbinding hlead hg₁ hg₂ h =>
      simp only [List.length_append, List.length_cons] at hbound
      have htext : g ++ (w ++ (g₁ ++ ',' :: (g₂ ++ text))) ++ u = g ++ w ++ (g₁ ++ ',' :: (g₂ ++ text ++ u)) := by simp
      rw [htext]
      have hat := @Cursor.at_word scope.bound n _ g w (g₁ ++ ',' :: (g₂ ++ text ++ u)) hg.skips hw
        (hg₁.endsWord (by decide) (by decide) _) (by omega)
      have hcomma := @Cursor.at_mark scope.bound (n + g.length + w.length) ',' g₁ (g₂ ++ text ++ u) hg₁ (by decide)
      obtain ⟨es, stop, hgroups, rfl⟩ := @ImportedGroup.groups g₂ u text _ scope h hg₂ hends (by omega)
        (n + g.length + w.length + g₁.length + 1)
      obtain ⟨e, stop', hread, rfl⟩ := hclause stop
      refine ⟨fun m _ => isMark_of_word hat.lexeme m, _, stop',
        importTail_both hat.lexeme hat.sound hbinding hlead (by rw [hat.next]; exact hcomma.lexeme)
          (by rw [hat.next]; exact hcomma.sound) (by rw [hat.next, hcomma.next]) hgroups hread, ?_⟩
      simp [Tree.shape, Tree.shapes, shapes_eq_map]

/-- An import is read up to its semicolon. -/
theorem CoreImport.readsItem {features : Features} (h : CoreImport text shape) (rest : List Char) :
    ReadsItem features text rest (· = shape) := by
  intro bound depth n g₀ b hg₀ hbound hdepth
  obtain ⟨d, rfl⟩ : ∃ d, depth = d + 1 := ⟨depth - 1, by
    have hpos : 0 < text.length := by cases h <;> simp
    omega⟩
  cases h with
  | @bare g g' quote hg hquote v hg' =>
      simp only [List.append_assoc, List.length_append, List.cons_append, List.nil_append] at hbound ⊢
      rw [← List.append_assoc g₀]
      have himport := @Cursor.at_word bound n b g₀ "import".toList (g ++ (written quote v ++ (g' ++ ';' :: rest))) hg₀
        isWord_import (hquote.endsWord hg _) (by omega)
      obtain ⟨hvalue, e, stop, htail, hshape⟩ := @sourceTail_written g g' (moduleScope features bound) (rules d) quote
        hquote hg hg' v rest (by simp; omega) (n + g₀.length + "import".toList.length)
      refine ⟨himport.sound.ne_done, _, stop, item_import himport (fun m _ => isMark_of_string hvalue m)
        (importTail_bare hvalue htail), ?_⟩
      simp [Tree.shape, Tree.shapes, hshape]
  | @names g g₁ g₂ g₃ clause shapes quote hg hclause hg₁ hg₂ hquote v hg₃ =>
      simp only [List.append_assoc, List.length_append, List.cons_append, List.nil_append] at hbound ⊢
      rw [← List.append_assoc g₀]
      have himport := @Cursor.at_word bound n b g₀ "import".toList
        (g ++ (clause ++ (g₁ ++ ("from".toList ++ (g₂ ++ (written quote v ++ (g₃ ++ ';' :: rest))))))) hg₀ isWord_import
        (hg.endsWord _) (by omega)
      have hsource := @fromClause_written (moduleScope features bound) (rules d) quote g₁ g₂ g₃ hg₁.gap hg₂ hquote hg₃ v
        rest (by rw [List.length_append, moduleScope_bound]; omega)
      obtain ⟨hplain, e, stop, htail, hshape⟩ := @ImportClause.exists_tail g rest clause shapes
        (moduleScope features bound)
        (rules d) hclause hg.gap _ _ (hg₁.endsWord _) (fun n => (hsource n).1) (fun n => (hsource n).2)
        (by simp; omega) (n + g₀.length + "import".toList.length) (Cursor.front bound _ n).token.start
      rw [List.append_assoc] at htail hplain
      exact ⟨himport.sound.ne_done, e, stop, item_import himport hplain htail, hshape⟩

end Script
end StoryDocs
