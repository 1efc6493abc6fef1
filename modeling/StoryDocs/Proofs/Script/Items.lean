import Mathlib.Data.List.Forall2
import StoryDocs.Proofs.Script.Exports
import StoryDocs.Proofs.Script.Shape
import StoryDocs.Proofs.Script.Tokens
import StoryDocs.Script.Program
import StoryDocs.Script.Specifier

/-!
# Items in turn

A printed program is read item by item, if each of its statements is read up to its own end with the
statements after it behind.  Comments that are statements of their own belong to the gap in front of the
next item.
-/

namespace StoryDocs
namespace Script

open Text Grammar

variable {features : Features} {bound depth n : Nat} {b : Bool} {g text rest w : List Char}
  {s : Statement} {ss tail : List Statement} {ms ms' : List (Shape → Prop)}

/-! ## Printed programs -/

namespace Program

/-- What stands between a statement and the next one, or the end. -/
def gapBehind (s : Statement) : List Statement → List Char
  | [] => ['\n']
  | t :: _ => gap s.kind t.kind

/-- Statements with what stands behind each of them. -/
def linedUp : List Statement → List Char
  | [] => []
  | s :: ss => s.text ++ (gapBehind s ss ++ linedUp ss)

theorem exists_gapBehind (s : Statement) (ss : List Statement) :
    ∃ g, gapBehind s ss = '\n' :: g ∧ allBlank (gapBehind s ss) = true ∧ allBlank g = true := by
  cases ss with
  | nil => exact ⟨[], rfl, rfl, rfl⟩
  | cons t ss =>
      rw [gapBehind, gap]
      split
      · exact ⟨[], rfl, rfl, rfl⟩
      · exact ⟨['\n'], rfl, rfl, rfl⟩

theorem joined_append_feed (hne : ss ≠ []) : joined ss ++ ['\n'] = linedUp ss := by
  induction ss with
  | nil => exact absurd rfl hne
  | cons s ss ih =>
      cases ss with
      | nil => simp [joined, linedUp, gapBehind]
      | cons t ss =>
          rw [joined, List.append_assoc, ih (by simp), List.append_assoc]
          rfl

theorem joined_ne_nil (hs : s ∈ ss) (htext : s.text ≠ []) : joined ss ≠ [] := by
  cases ss with
  | nil => cases hs
  | cons t ss =>
      cases ss with
      | nil =>
          obtain rfl := List.mem_singleton.mp hs
          exact htext
      | cons u ss =>
          obtain ⟨g, hg, _⟩ := exists_gapBehind t (u :: ss)
          rw [gapBehind] at hg
          simp [joined, hg]

theorem print_eq_linedUp (hs : s ∈ ss) (htext : s.text ≠ []) : print ⟨ss⟩ = linedUp ss := by
  have hjoined := joined_ne_nil hs htext
  have hne : ss ≠ [] := List.ne_nil_of_mem hs
  rw [← joined_append_feed hne, print]
  split
  · rename_i heq
    exact absurd heq hjoined
  · rfl

theorem length_le_linedUp (ss : List Statement) : ss.length ≤ (linedUp ss).length := by
  induction ss with
  | nil => simp
  | cons s ss ih =>
      obtain ⟨g, hg, _⟩ := exists_gapBehind s ss
      rw [linedUp, hg]
      simp only [List.length_append, List.length_cons]
      omega

end Program

open Program

/-! ## Items -/

/-- A text that is read as one module item, up to what stands behind it; `meaning` holds of the item. -/
def ReadsItem (features : Features) (text rest : List Char) (meaning : Shape → Prop) : Prop :=
  ∀ (bound depth n : Nat) (g : List Char) (b : Bool), Skips g b →
    (g ++ text ++ rest).length < bound → 64 * text.length ≤ depth →
      (Cursor.front bound (g ++ text ++ rest) n).token.lexeme ≠ .done ∧
      ∃ tree stop, rules depth .item (moduleScope features bound)
          (.front bound (g ++ text ++ rest) n) = some (tree, .front bound rest stop) ∧
        meaning tree.shape

theorem ReadsItem.imp {meaning meaning' : Shape → Prop} (h : ReadsItem features text rest meaning)
    (himp : ∀ item, meaning item → meaning' item) : ReadsItem features text rest meaning' := by
  intro bound depth n g b hg hbound hdepth
  obtain ⟨hgoes, tree, stop, hitem, hmeaning⟩ := h bound depth n g b hg hbound hdepth
  exact ⟨hgoes, tree, stop, hitem, himp _ hmeaning⟩

theorem skipInterpreter_of_head? (h : text.head? ≠ some '#') : skipInterpreter text = (text, 0) := by
  unfold skipInterpreter
  split
  · exact absurd rfl h
  · rfl

/-- A text that is read as one item is accepted as a module of this item. -/
theorem ReadsItem.exists_parse {meaning : Shape → Prop} (h : ReadsItem features text [] meaning)
    (hne : text ≠ []) (hstart : text.head? ≠ some '#') :
    ∃ tree, Module.parse? features text = some [tree] ∧ meaning tree.shape := by
  obtain ⟨hgoes, tree, stop, hitem, hmeaning⟩ := h (text.length + 1) (depthBound text) 0 [] _
    (skips_blank rfl) (by simp) (by rw [depthBound]; omega)
  rw [List.nil_append, List.append_nil] at hgoes hitem
  have hpos := List.length_pos_iff.mpr hne
  refine ⟨tree, Module.parse?_of_repeated (skipInterpreter_of_head? hstart) (.cons ?_ hitem (.nil rfl)) ?_,
    hmeaning⟩
  · rw [run_atEnd, beq_eq_false_iff_ne.mpr hgoes]
  · rw [List.length_singleton]
    omega

/-- Statements that are read one after the other, with `tail` behind them. -/
inductive InTurn (features : Features) (tail : List Statement) :
    List Statement → List (Shape → Prop) → Prop
  | nil : InTurn features tail [] []
  | item {s : Statement} {ss : List Statement} {m : Shape → Prop} {ms : List (Shape → Prop)}
      (hread : ReadsItem features s.text (gapBehind s (ss ++ tail) ++ linedUp (ss ++ tail)) m)
      (hrest : InTurn features tail ss ms) : InTurn features tail (s :: ss) (m :: ms)
  | comments {s : Statement} {ss : List Statement} {ms : List (Shape → Prop)} {b : Bool}
      (hskips : Skips (s.text ++ ['\n']) b) (hrest : InTurn features tail ss ms) :
      InTurn features tail (s :: ss) ms

theorem InTurn.append (h : InTurn features tail ss ms) (htail : InTurn features [] tail ms') :
    InTurn features [] (ss ++ tail) (ms ++ ms') := by
  induction h with
  | nil => exact htail
  | item hread _ ih =>
      rw [← List.append_nil (_ ++ tail)] at hread
      exact .item hread ih
  | comments hskips _ ih => exact .comments hskips ih

/-- Statements in turn are read up to the end. -/
theorem InTurn.exists_repeated (h : InTurn features [] ss ms) (hg : Skips g b) (n : Nat)
    (hbound : (g ++ linedUp ss).length < bound) (hdepth : 64 * (linedUp ss).length ≤ depth) :
    ∃ es rest stop, Repeated (moduleScope features bound) atEnd (rules depth .item)
        (.front bound (g ++ linedUp ss) n) es (.front bound rest stop) ∧
      List.Forall₂ (fun t m => m t.shape) es ms ∧ es.length ≤ ss.length := by
  induction h generalizing g b n with
  | nil =>
      refine ⟨[], g ++ [], n, .nil ?_, .nil, Nat.le_refl _⟩
      rw [linedUp, List.append_nil, run_atEnd, Cursor.front, Token.read_end hg]
      rfl
  | @item s ss m ms hread _ ih =>
      rw [List.append_nil] at hread
      obtain ⟨_, hgap, hblank, _⟩ := exists_gapBehind s ss
      have htext : g ++ linedUp (s :: ss) = g ++ s.text ++ (gapBehind s ss ++ linedUp ss) := by
        simp [linedUp]
      rw [linedUp] at hdepth
      simp only [List.length_append] at hdepth
      rw [htext] at hbound ⊢
      obtain ⟨hgoes, tree, stop, hitem, hmeaning⟩ := hread bound depth n g b hg hbound (by omega)
      obtain ⟨es, rest, stop', hes, hmeanings, hcount⟩ := ih (skips_blank hblank) stop
        (by simp only [List.length_append] at hbound ⊢; omega) (by omega)
      refine ⟨tree :: es, rest, stop', .cons ?_ hitem hes, .cons hmeaning hmeanings, by simp; omega⟩
      rw [run_atEnd, beq_eq_false_iff_ne.mpr hgoes]
  | @comments s ss ms b' hskips _ ih =>
      -- The comments and the line feed behind them go to the gap of what follows.
      obtain ⟨more, hgap, _, hblank⟩ := exists_gapBehind s ss
      have htext : g ++ linedUp (s :: ss) = g ++ (s.text ++ ['\n']) ++ more ++ linedUp ss := by
        simp [linedUp, hgap]
      rw [linedUp] at hdepth
      simp only [List.length_append] at hdepth
      rw [htext] at hbound ⊢
      obtain ⟨es, rest, stop, hes, hmeanings, hcount⟩ := ih ((hg.append hskips).append (skips_blank hblank)) n
        hbound (by omega)
      exact ⟨es, rest, stop, hes, hmeanings, by simp; omega⟩

/-- A program whose statements are read in turn is accepted as a module with their items. -/
theorem InTurn.exists_parse (h : InTurn features [] ss ms) (hs : s ∈ ss) (htext : s.text ≠ [])
    (hstart : (print ⟨ss⟩).head? ≠ some '#') :
    ∃ items, Module.parse? features (print ⟨ss⟩) = some items ∧
      List.Forall₂ (fun t m => m t.shape) items ms := by
  have hprint := print_eq_linedUp hs htext
  rw [hprint] at hstart ⊢
  obtain ⟨items, rest, stop, hitems, hmeanings, hcount⟩ := @InTurn.exists_repeated features
    ((linedUp ss).length + 1) (depthBound (linedUp ss)) _ [] ss ms h (skips_blank rfl) 0 (by simp)
    (by rw [depthBound]; omega)
  have hlength := length_le_linedUp ss
  exact ⟨items, Module.parse?_of_repeated (skipInterpreter_of_head? hstart) hitems (by omega), hmeanings⟩

/-! ## Imports -/

/-- The shape of an import of a whole module under a name. -/
def importAllShape (name value : String) : Shape :=
  .node .importDecl "" [.node .importSpecifier "*" [.node .identifier name []], .node .string value []]

/-- An import of a whole module, from its tokens one behind the other. -/
theorem exists_item_importAll {scope : Scope} {rs : Rules} {c : Cursor} {name value : String}
    {r₁ r₂ r₃ r₄ r₅ r₆ : List Char} {n₁ n₂ n₃ n₄ n₅ n₆ stop : Nat}
    (himport : c.At scope.bound (.word "import" false) r₁ n₁)
    (hstar : (Cursor.front scope.bound r₁ n₁).At scope.bound (.mark "*") r₂ n₂)
    (has : (Cursor.front scope.bound r₂ n₂).At scope.bound (.word "as" false) r₃ n₃)
    (hname : (Cursor.front scope.bound r₃ n₃).At scope.bound (.word name false) r₄ n₄)
    (hfrom : (Cursor.front scope.bound r₄ n₄).At scope.bound (.word "from" false) r₅ n₅)
    (hvalue : (Cursor.front scope.bound r₅ n₅).At scope.bound (.string value) r₆ n₆)
    (hend : (Cursor.front scope.bound r₆ n₆).At scope.bound (.mark ";") rest stop)
    (hbinding : BindingWord name) :
    ∃ tree : Tree, item rs scope c = some (tree, .front scope.bound rest stop) ∧
      tree.shape = importAllShape name value := by
  -- Each token by the rule that reads it, then the rules around them from the inside out.
  have hleads := @run_expectWord scope c "import" (by rw [isWord_of_word himport.lexeme]; rfl)
    himport.sound
  have hasword := @run_expectWord scope _ "as" (by rw [isWord_of_word has.lexeme]; rfl) has.sound
  have hfromword := @run_expectWord scope _ "from" (by rw [isWord_of_word hfrom.lexeme]; rfl) hfrom.sound
  have hsemicolon := @run_expectSemicolon scope _ (by rw [isMark_of_mark hend.lexeme]; rfl) hend.sound
  have hbound := @bindingName_word scope _ name hname.lexeme hname.sound hbinding
  rw [himport.next] at hleads
  rw [has.next] at hasword
  rw [hname.next] at hbound
  rw [hfrom.next] at hfromword
  rw [hend.next] at hsemicolon
  have hstarred := @run_eatMark scope _ "*" (by rw [isMark_of_mark hstar.lexeme]; rfl) hstar.sound
  rw [hstar.next] at hstarred
  have hstring : stringToken scope (.front scope.bound r₅ n₅) = some (.node .string
      ⟨(Cursor.front scope.bound r₅ n₅).token.start, (Cursor.front scope.bound r₅ n₅).token.stop⟩ value [],
        .front scope.bound r₆ n₆) := by
    simp [stringToken, hvalue.lexeme, run_map, run_advance hvalue.sound, hvalue.next]
  have hmore : importItem rs scope c = importTail rs c.token.start scope (.front scope.bound r₁ n₁) := by
    simp [importItem, himport.next, isMark_of_mark hstar.lexeme, run_bind_of hleads]
  generalize Cursor.front scope.bound r₁ n₁ = c₁ at *
  generalize Cursor.front scope.bound r₂ n₂ = c₂ at *
  generalize Cursor.front scope.bound r₃ n₃ = c₃ at *
  generalize Cursor.front scope.bound r₄ n₄ = c₄ at *
  generalize Cursor.front scope.bound r₅ n₅ = c₅ at *
  generalize Cursor.front scope.bound r₆ n₆ = c₆ at *
  generalize Cursor.front scope.bound rest stop = c₇ at *
  have hspecifier : namespaceSpecifier c₁.token.start scope c₂ = some (.node .importSpecifier
      ⟨c₁.token.start, c₄.lastStop⟩ "*" [.node .identifier ⟨c₃.token.start, c₃.token.stop⟩ name []], c₄) := by
    simp [namespaceSpecifier, run_bind_of hasword, run_bind_of hbound]
  have hattributes : importAttributes? rs scope c₆ = some ([], c₆) := by
    simp [importAttributes?, isWord_of_mark hend.lexeme]
  have hclause : fromClause rs scope c₄ =
      some ([.node .string ⟨c₅.token.start, c₅.token.stop⟩ value []], c₇) := by
    simp [fromClause, sourceTail, run_bind_of hfromword, run_bind_of hstring, run_bind_of hattributes,
      run_map, hsemicolon]
  have hstring? : atString scope c₁ = some (false, c₁) := by
    simp [atString, hstar.lexeme]
  have hreference : isReference c₁.token = false := by rw [isReference, hstar.lexeme]
  have hate : eatMarkIf (ImportLead.plain != ImportLead.source) "*" scope c₁ = some (true, c₂) := hstarred
  have htail : importTail rs c.token.start scope c₁ = some (.node .importDecl
      ⟨c.token.start, c₇.lastStop⟩ "" [.node .importSpecifier ⟨c₁.token.start, c₄.lastStop⟩ "*"
        [.node .identifier ⟨c₃.token.start, c₃.token.stop⟩ name []],
        .node .string ⟨c₅.token.start, c₅.token.stop⟩ value []], c₇) := by
    simp [importTail, run_bind_of hstring?, hreference, run_bind_of hate, run_bind_of hspecifier,
      run_bind_of hclause]
  have hitem : item rs scope c = importItem rs scope c := by
    simp [item, isWord_of_word himport.lexeme]
  refine ⟨_, hitem.trans (hmore.trans htail), ?_⟩
  simp [Tree.shape, Tree.shapes, importAllShape]

/-- The text of an import of a whole module from what `source` quotes. -/
def importAll (name source : List Char) : List Char :=
  "import * as ".toList ++ name ++ " from ".toList ++ source ++ [';']

theorem importAll_eq (name source rest : List Char) : importAll name source ++ rest =
    "import".toList ++ ([' '] ++ '*' :: ' ' :: ("as".toList ++ ([' '] ++ name ++ ([' '] ++ "from".toList ++
      ([' '] ++ source ++ ';' :: rest))))) := by
  show "import * as ".toList ++ name ++ " from ".toList ++ source ++ [';'] ++ rest = _
  simp

theorem length_importAll (name source : List Char) :
    (importAll name source).length = name.length + source.length + 19 := by
  show ("import * as ".toList ++ name ++ " from ".toList ++ source ++ [';']).length = _
  simp
  omega

theorem isWord_import : IsWord "import".toList :=
  ⟨'i', "mport".toList, rfl, by decide, by decide⟩

theorem isWord_as : IsWord "as".toList :=
  ⟨'a', "s".toList, rfl, by decide, by decide⟩

theorem isWord_from : IsWord "from".toList :=
  ⟨'f', "rom".toList, rfl, by decide, by decide⟩

theorem isWord_export : IsWord "export".toList :=
  ⟨'e', "xport".toList, rfl, by decide, by decide⟩

theorem isWord_default : IsWord "default".toList :=
  ⟨'d', "efault".toList, rfl, by decide, by decide⟩

theorem isWord_const : IsWord "const".toList :=
  ⟨'c', "onst".toList, rfl, by decide, by decide⟩

/-- An import of a whole module is read up to its semicolon. -/
theorem readsItem_importAll (hw : IsWord w) (hbinding : BindingWord (String.ofList w)) (v rest : List Char) :
    ReadsItem features (importAll w (Naming.quoted v)) rest
      (· = importAllShape (String.ofList w) (String.ofList v)) := by
  intro bound depth n g b hg hbound hdepth
  rw [List.append_assoc] at hbound ⊢
  simp only [List.length_append, length_importAll] at hbound
  rw [importAll_eq]
  have hsize : "import".toList.length = 6 ∧ "as".toList.length = 2 ∧ "from".toList.length = 4 := by decide
  obtain ⟨d, rfl⟩ : ∃ d, depth = d + 1 := ⟨depth - 1, by rw [length_importAll] at hdepth; omega⟩
  have hsource := fun m => @Cursor.at_quoted bound m [' '] (';' :: rest) isGap_space v (by omega)
  have hend := fun m => @Cursor.at_mark_front bound m ';' rest (by decide)
  generalize Naming.quoted v = q at *
  have hfrom := fun m => @Cursor.at_word bound m _ [' '] "from".toList ([' '] ++ q ++ ';' :: rest)
    (skips_blank (by decide)) isWord_from (endsWord_space _) (by omega)
  have hname := fun m => @Cursor.at_word bound m _ [' '] w ([' '] ++ "from".toList ++ ([' '] ++ q ++ ';' :: rest))
    (skips_blank (by decide)) hw (endsWord_space _) (by omega)
  have has := fun m => @Cursor.at_word bound m _ [' '] "as".toList
    ([' '] ++ w ++ ([' '] ++ "from".toList ++ ([' '] ++ q ++ ';' :: rest)))
    (skips_blank (by decide)) isWord_as (endsWord_space _) (by omega)
  have hstar := fun m => @Cursor.at_sign bound m '*' [' ']
    ("as".toList ++ ([' '] ++ w ++ ([' '] ++ "from".toList ++ ([' '] ++ q ++ ';' :: rest))))
    isGap_space (by decide)
  have himport := @Cursor.at_word bound n b g "import".toList ([' '] ++ '*' :: ' ' :: ("as".toList ++ ([' '] ++
    w ++ ([' '] ++ "from".toList ++ ([' '] ++ q ++ ';' :: rest))))) hg isWord_import (endsWord_space _) (by omega)
  rw [List.append_assoc] at himport
  obtain ⟨tree, htree, hshape⟩ := @exists_item_importAll rest (moduleScope features bound) (rules d) _ _ _
    _ _ _ _ _ _ _ _ _ _ _ _ _ himport (hstar _) (has _) (hname _) (hfrom _) (hsource _) (hend _) hbinding
  exact ⟨himport.sound.ne_done, tree, _, htree, hshape⟩

end Script
end StoryDocs
