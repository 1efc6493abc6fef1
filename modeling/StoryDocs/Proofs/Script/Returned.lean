import StoryDocs.Proofs.Script.Core.Modules
import StoryDocs.Proofs.Story.Templates

/-!
# What a function returns

A function without parameters is put together from the text of an accepted expression.  Every reader of the syntax
accepts it in its turn.  It returns the expression unless that is several with commas between them: then it returns
the first one, and the others stand behind the function.
-/

namespace StoryDocs
namespace Script

open Text Grammar

section Arrow

variable {tags comma : Bool} {g text : List Char} {s shape : Shape} {ss : List Shape}

/-! ## Functions -/

/-- The shape of a function without parameters. -/
def thunkShape (body : Shape) : Shape :=
  .node .arrow "" [.node .parameters "" [], body]

/-- No brace stands at the start of a text, behind gaps. -/
def StartsNoBrace (text : List Char) : Prop :=
  ∀ g rest, IsGap g → text ≠ g ++ '\x7b' :: rest

theorem StartsNoBrace.head?_ne {rest : List Char} (h : StartsNoBrace (g ++ (text ++ rest))) (hg : IsGap g) :
    text.head? ≠ some '\x7b' := by
  intro hhead
  obtain ⟨k, rfl⟩ : ∃ k, text = '\x7b' :: k := by
    cases text with
    | nil => cases hhead
    | cons c k => exact ⟨k, by rw [Option.some.inj hhead]⟩
  exact h g (k ++ rest) hg rfl

theorem startsNoBrace_of_head? {c : Char} (hhead : text.head? = some c) (hc : c ∉ '\x7b' :: '/' :: blanks) :
    StartsNoBrace text := by
  rintro g rest hg rfl
  rw [List.mem_cons, not_or] at hc
  cases g with
  | nil => exact hc.1 (Option.some.inj hhead).symm
  | cons d g =>
      obtain rfl := Option.some.inj hhead
      exact hc.2 (hg.head_mem d rfl)

theorem StartsNoBrace.append_feed (h : StartsNoBrace text) : StartsNoBrace (text ++ ['\n']) := by
  intro g rest hg heq
  rcases List.eq_nil_or_concat rest with rfl | ⟨k, c, rfl⟩
  · have hlast := List.append_inj_right' heq rfl
    cases hlast
  · rw [List.concat_eq_append, ← List.cons_append, ← List.append_assoc] at heq
    exact h g k hg (List.append_inj_left' heq rfl)

theorem core_arrow {body : List Char} (hg : IsGap g) (hbody : Core tags .value body [shape])
    (hbrace : body.head? ≠ some '\x7b') : Core tags .value ("() =>".toList ++ (g ++ body)) [thunkShape shape] := by
  show Core tags .value ('(' :: ([] ++ ')' :: ([' '] ++ '=' :: '>' :: (g ++ body)))) _
  exact .function (.nil .nil) .nil isGap_space (by decide) hg hbody hbrace

/-- The first of several values becomes what a function returns. -/
theorem Core.arrow (h : Core tags (.list .value comma) text (s :: ss)) (hbrace : StartsNoBrace text) :
    Core tags (.list .value comma) ("() => ".toList ++ text) (thunkShape s :: ss) := by
  cases h with
  | @last _ g g' body _ hg hbody hg' =>
      have harrow := core_arrow (isGap_space.append hg) hbody (hbrace.head?_ne hg)
      have hlist := @Core.last tags .value [] _ _ _ .nil harrow hg'
      simpa using hlist
  | @cons _ _ g g' body rest _ _ hg hbody hg' hrest =>
      have harrow := core_arrow (isGap_space.append hg) hbody (hbrace.head?_ne hg)
      have hlist := @Core.cons tags .value _ [] _ _ _ _ _ .nil harrow hg' hrest
      simpa using hlist

end Arrow

namespace Fragment

variable {text : List Char} {dialect : Dialect} {context : String} {f : Fragment} {parse? : ModuleReader}
  {shapes : List Shape}

/-! ## The text of a function -/

/-- The text behind the arrow of the function that returns an expression. -/
def returned (f : Fragment) : List Char :=
  if f.isObjectLiteral then '(' :: (f.source ++ [')']) else f.source

/-- The shape of what the function returns: an object literal stands between brackets. -/
def returnedShape (f : Fragment) : Shape :=
  if f.isObjectLiteral then .node .paren "" [f.tree.shape] else f.tree.shape

theorem thunk_eq (f : Fragment) : f.thunk = "() => ".toList ++ f.returned := by
  rw [thunk, returned]
  split <;> simp

theorem trim_thunk (h : parseWith parse? text dialect context = .ok f) : trim f.thunk = f.thunk := by
  obtain ⟨hsource, hne⟩ := source_of_parse h
  obtain ⟨c, hlast, hblank⟩ := (Synthesis.solid_trim hne).last
  rw [← hsource] at hlast
  obtain ⟨d, hd, hcode⟩ : ∃ d, f.thunk.getLast? = some d ∧ isBlank d = false := by
    rw [thunk_eq, returned]
    split
    · exact ⟨')', by rw [← List.cons_append, ← List.append_assoc, List.getLast?_concat], by decide⟩
    · exact ⟨c, by rw [List.getLast?_append, hlast, Option.some_or], hblank⟩
  have hstart : trimStart f.thunk = f.thunk := by
    rw [thunk_eq]
    rfl
  have hend := trimEnd_append_of_getLast? hd hcode []
  rw [List.append_nil, show trimEnd [] = [] from rfl, List.append_nil] at hend
  rw [trim, hstart, hend]

theorem exists_thunk_eq (f : Fragment) : ∃ opening closing, f.thunk = opening ++ f.source ++ closing ∧
    '\n' ∉ opening ∧ '\n' ∉ closing := by
  rw [thunk]
  split
  · exact ⟨_, _, rfl, by decide, by decide⟩
  · exact ⟨_, [], (List.append_nil _).symm, by decide, by decide⟩

/-! ## Expressions that are returned -/

/-- The function of an object literal returns it between brackets. -/
theorem core_arrow_object {s : Shape} (h : Core tags (.list .value false) text [s]) :
    Core tags .value ("() => ".toList ++ '(' :: (text ++ [')'])) [thunkShape (.node .paren "" [s])] :=
  core_arrow isGap_space (Core.paren h (List.cons_ne_nil _ _)).alone (by simp)

/-- The function of a value. -/
theorem core_thunk_value (h : Core tags .value f.source [f.tree.shape])
    (hopen : f.tree.shape.kind = .object ∨ f.source.head? ≠ some '\x7b') :
    Core tags .value f.thunk [thunkShape f.returnedShape] := by
  rw [thunk_eq, returned, returnedShape]
  cases hliteral : f.isObjectLiteral with
  | true => exact core_arrow_object h.single
  | false =>
      refine core_arrow isGap_space h (hopen.resolve_left fun hobject => ?_)
      rw [isObjectLiteral, beq_eq_false_iff_ne, ← kind_shape] at hliteral
      exact hliteral hobject

/-- The function of one value that no comment goes beyond. -/
theorem core_thunk (h : Core tags (.list .value false) f.source [f.tree.shape])
    (hopen : f.tree.shape.kind = .object ∨ StartsNoBrace f.source) :
    Core tags (.list .value false) f.thunk [thunkShape f.returnedShape] := by
  rw [thunk_eq, returned, returnedShape]
  cases hliteral : f.isObjectLiteral with
  | true => exact (core_arrow_object h).single
  | false =>
      refine h.arrow (hopen.resolve_left fun hobject => ?_)
      rw [isObjectLiteral, beq_eq_false_iff_ne, ← kind_shape] at hliteral
      exact hliteral hobject

/-- Expressions of the syntax that stand as what a function returns.  What closes the brackets around an object
literal stands on its last line.  Any other expression ends a line, and starts with no brace: that would be a block. -/
inductive Returns (tags : Bool) : List Char → List Shape → Prop
  | object {text : List Char} {s : Shape} (htext : Core tags (.list .value false) text [s]) (hkind : s.kind = .object) :
      Returns tags text [s]
  | other {text : List Char} {shapes : List Shape} (htext : Core tags (.list .value false) (text ++ ['\n']) shapes)
      (hne : shapes ≠ []) (hkind : (Shape.joined shapes).kind ≠ .object) (hbrace : StartsNoBrace text) :
      Returns tags text shapes

theorem Returns.ne_nil (h : Returns tags text shapes) : shapes ≠ [] := by
  cases h with
  | object => exact List.cons_ne_nil _ _
  | other _ hne => exact hne

theorem Returns.core (h : Returns tags text shapes) : Core tags (.list .value false) (text ++ ['\n']) shapes := by
  cases h with
  | object htext => exact htext.gap_behind isGap_feed _ _ rfl
  | other htext => exact htext

/-- The function of an expression that stands behind an arrow returns its first value. -/
theorem exists_core_thunk (h : Returns tags f.source shapes) (hshape : f.tree.shape = .joined shapes) :
    ∃ s ss, Core tags (.list .value false) (f.thunk ++ ['\n']) (thunkShape s :: ss) ∧
      ((ss = [] ∧ f.tree.kind ≠ .sequence ∧ s = f.returnedShape) ∨
        (ss ≠ [] ∧ f.tree.shape = .node .sequence "" (s :: ss))) := by
  have hliteral : f.isObjectLiteral = ((Shape.joined shapes).kind == .object) := by
    rw [isObjectLiteral, ← kind_shape, hshape]
  rw [thunk_eq, returned, returnedShape, hliteral, ← kind_shape, hshape]
  generalize f.source = source at h ⊢
  cases h with
  | @object s htext hkind =>
      have hobject : ((Shape.joined [s]).kind == .object) = true := beq_iff_eq.mpr hkind
      rw [if_pos hobject, if_pos hobject]
      refine ⟨_, [], (core_arrow_object htext).single.gap_behind isGap_feed _ _ rfl, .inl ⟨rfl, ?_, rfl⟩⟩
      rw [Shape.joined, hkind]
      exact Kind.noConfusion
  | other htext hne hkind hbrace =>
      have hobject : ¬ ((Shape.joined shapes).kind == .object) = true := mt beq_iff_eq.mp hkind
      rw [if_neg hobject, if_neg hobject]
      obtain ⟨s, ss, rfl⟩ := List.exists_cons_of_ne_nil hne
      have hlist := htext.arrow (hbrace.append_feed)
      rw [← List.append_assoc] at hlist
      refine ⟨s, ss, hlist, ?_⟩
      cases ss with
      | nil =>
          refine .inl ⟨rfl, ?_, rfl⟩
          intro hsequence
          have hmem := htext.kind_mem s List.mem_cons_self
          rw [show s.kind = .sequence from hsequence] at hmem
          exact absurd hmem (by decide)
      | cons t ss => exact .inr ⟨List.cons_ne_nil _ _, rfl⟩

/-- The function of an accepted expression is accepted in its turn, by every reader of the syntax.  It has no
parameters, and its body is the expression, with its tree or between brackets if it is an object literal, exactly
if the expression is not several with commas between them.  Of these the function returns the first, and the others
stand behind it. -/
theorem thunk_returns (hparser : ReadsCore parse?) (h : parseWith parse? text dialect context = .ok f)
    (hreturns : Returns dialect.features.tags f.source shapes) :
    ∃ g, parseWith parse? f.thunk dialect context = .ok g ∧ g.source = f.thunk ∧
      (g.tree.shape = thunkShape f.returnedShape ↔ f.tree.kind ≠ .sequence) ∧
      ∀ s ss, f.tree.shape = .node .sequence "" (s :: ss) → g.tree.shape = .node .sequence "" (thunkShape s :: ss) := by
  have hshape := shape_tree hparser id h hreturns.core hreturns.ne_nil
  obtain ⟨s, ss, hcore, hcases⟩ := exists_core_thunk hreturns hshape
  have htrim := trim_thunk h
  have hne : trim f.thunk ≠ [] := by
    rw [htrim, thunk_eq]
    simp
  rw [← htrim] at hcore
  obtain ⟨g, hg, hsource, hread⟩ := @exists_parse_of_core _ _ _ dialect _ hparser id hne hcore (List.cons_ne_nil _ _)
  refine ⟨g, hg context, hsource.trans htrim, ?_⟩
  rw [hread]
  rcases hcases with ⟨rfl, hkind, rfl⟩ | ⟨hmore, hsequence⟩
  · refine ⟨iff_of_true rfl hkind, fun s ss hsequence => ?_⟩
    rw [← kind_shape, hsequence] at hkind
    exact absurd rfl hkind
  · obtain ⟨t, ss, rfl⟩ := List.exists_cons_of_ne_nil hmore
    rw [← kind_shape, hsequence]
    refine ⟨iff_of_false ?_ fun hne => hne rfl, ?_⟩
    · exact fun heq => nomatch congrArg Shape.kind heq
    · rintro s ss ⟨⟩
      rfl

/-- A call of a member with a function and an array, and a comment behind it. -/
def rowsExpression : List Char :=
  "rows.map((row) => (\x7b id: row.id, ...rest \x7d), ".toList ++ "[1, 'a']) // all".toList

theorem core_rows (tags : Bool) : ∃ shape, Core tags (.list .value false) (rowsExpression ++ ['\n']) [shape] ∧
    shape.kind = .call := by
  have hrow : Core tags .primary "row".toList _ := .name (by decide) (by decide) (by decide)
  have hrows : Core tags .primary "rows".toList _ := .name (by decide) (by decide) (by decide)
  have hrest : Core tags .primary "rest".toList _ := .name (by decide) (by decide) (by decide)
  have hid : IsWord "id".toList := by decide
  have hmap : IsWord "map".toList := by decide
  have hone : Core tags .value "1".toList _ := .number (.whole (.digits (by decide) (by decide) rfl))
  have hletter : Core tags .value (written '\'' ['a']) _ := (Core.string (.inr rfl) ['a']).alone
  have hcomment : IsGap " // all\n".toList := .blank (by decide)
    (.line (w := " all".toList) (by decide) (by decide) .nil)
  have hobject := (Core.object (.cons isGap_space
    (.property (.word hid) .nil isGap_space (.operand hrow (.memberStep .nil .nil hid .nothing))) .nil
      (.last isGap_space (.memberSpread .nil hrest.alone) isGap_space))).alone
  have hfunction := Core.function (.last .nil (.parameter (w := "row".toList) (by decide) (by decide)) .nil)
    (List.nodup_singleton _) isGap_space (by decide) isGap_space
    (Core.paren hobject.single (List.cons_ne_nil _ _)).alone (by decide)
  have harray := (Core.array (.cons .nil (.element hone) .nil (.last isGap_space (.element hletter) .nil))).alone
  have hcall := Core.operand hrows (.memberStep .nil .nil hmap
    (.callStep .nil (.cons .nil (.element hfunction) .nil (.last isGap_space (.element harray) .nil)) .nothing))
  exact ⟨_, Eq.subst (motive := (Core tags _ · _)) (by decide +kernel) (Core.last .nil hcall hcomment), rfl⟩

/-- The function of the call returns the call, whatever its tree says. -/
theorem thunk_returns_rows : ∃ f g, parse rowsExpression .tsx "test" = .ok f ∧
    f.thunk = "() => ".toList ++ rowsExpression ∧
      parse f.thunk .tsx "test" = .ok g ∧ g.tree.shape = thunkShape f.tree.shape := by
  obtain ⟨shape, hcore, hkind⟩ := core_rows Dialect.tsx.features.tags
  have hbrace : StartsNoBrace rowsExpression := startsNoBrace_of_head? rfl (by decide)
  have hobject : (Shape.joined [shape]).kind ≠ .object := by
    rw [Shape.joined, hkind]
    exact Kind.noConfusion
  obtain ⟨f, hf, hsource, hshape⟩ := @exists_parse_of_core _ rowsExpression _ .tsx _ readsCore_parse? id
    (by decide) hcore (List.cons_ne_nil _ _)
  have hreturns : Returns Dialect.tsx.features.tags f.source [shape] := by
    rw [hsource]
    exact .other hcore (List.cons_ne_nil _ _) hobject hbrace
  obtain ⟨g, hg, _, hbody, _⟩ := thunk_returns readsCore_parse? (hf "test") hreturns
  have hliteral : f.isObjectLiteral = false := by
    rw [isObjectLiteral, ← kind_shape, hshape, Shape.joined, hkind]
    rfl
  refine ⟨f, g, hf "test", ?_, hg, ?_⟩
  · have htrim : trim rowsExpression = rowsExpression := by decide
    rw [thunk, hliteral, hsource, htrim]
    rfl
  · rw [returnedShape, hliteral] at hbody
    refine hbody.mpr ?_
    rw [← kind_shape, hshape, Shape.joined, hkind]
    exact Kind.noConfusion

/-- Two expressions with a comma between them are one, and what should be their function is a function of the
first and the second behind it. -/
theorem thunk_loses_operand : ∃ f g, parse "a, b".toList .tsx "test" = .ok f ∧
    parse f.thunk .tsx "test" = .ok g ∧ f.tree.kind = .sequence ∧
      g.tree.kind = .sequence ∧ g.tree.parts.map Tree.kind = [.arrow, .identifier] := by
  have haccepted : ((Module.parse? Dialect.tsx.features (wrap "a, b".toList)).bind expressionOf?).map
      Tree.kind = some .sequence := by decide +kernel
  obtain ⟨tree, htree, hkind⟩ := Option.map_eq_some_iff.mp haccepted
  have hthunk : ((Module.parse? Dialect.tsx.features (wrap "() => a, b".toList)).bind expressionOf?).map
      (fun t => (t.kind, t.parts.map Tree.kind)) = some (.sequence, [.arrow, .identifier]) := by decide +kernel
  obtain ⟨tree', htree', hkinds⟩ := Option.map_eq_some_iff.mp hthunk
  rw [Prod.mk.injEq] at hkinds
  have hparse := @parse_eq_ok "a, b".toList .tsx "test" tree (by decide) htree
  have hsource : (⟨trim "a, b".toList, tree⟩ : Fragment).thunk = "() => a, b".toList := by
    rw [thunk, isObjectLiteral, hkind]
    rfl
  refine ⟨_, ⟨trim "() => a, b".toList, tree'⟩, hparse, ?_, hkind, hkinds⟩
  rw [hsource]
  exact parse_eq_ok (by decide) htree'

end Fragment
end Script
end StoryDocs
