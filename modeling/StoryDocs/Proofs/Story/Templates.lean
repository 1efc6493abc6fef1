import StoryDocs.Proofs.Outcome
import StoryDocs.Proofs.Script.Fragments
import StoryDocs.Proofs.Story.Relaying

/-!
# Templates in synthesized objects

Expressions of attributes and story bodies go into object literals as text.  A template in such an
expression keeps its bytes if it stands on one line.  Over several lines it keeps them exactly if the
expression loses as much indentation there as the object literal gives back.
-/

namespace StoryDocs

open Text Markup Script

namespace Synthesis

variable {dialect : Dialect} {source : List Char}

theorem solid_trim {s : List Char} (h : trim s ≠ []) : Solid (trim s) where
  head := by
    obtain ⟨c, w, hw⟩ := List.exists_cons_of_ne_nil h
    have hhead : (trim s).head? = some c := by
      rw [hw]
      rfl
    exact ⟨c, hhead, not_isBlank_of_head?_trim hhead⟩
  last := by
    obtain ⟨c, hc⟩ : ∃ c, (trim s).getLast? = some c := ⟨_, List.getLast?_eq_some_getLast h⟩
    exact ⟨c, hc, getLast?_trimEnd hc⟩

/-! ## Embedded expressions -/

/-- How the expression of an attribute or of a story body goes into a property. -/
structure Embedding (dialect : Dialect) (source : List Char) where
  fragment : Fragment
  context : String
  accepted : Fragment.parse source dialect context = .ok fragment
  /-- What the property starts with: its key, or the dots of a spread one. -/
  lead : List Char
  lead_ne : lead ≠ []
  feed_not_mem_lead : '\n' ∉ lead
  /-- What makes the expression a function. -/
  opening : List Char
  closing : List Char
  wrapped : (opening, closing) ∈
    [([], []), ("() => ".toList, []), ("() => (".toList, [')'])]

namespace Embedding

variable (e : Embedding dialect source)

/-- The expression as it goes into the property. -/
def text : List Char :=
  e.opening ++ e.fragment.source ++ e.closing

/-- The property. -/
def property : List Char :=
  e.lead ++ dedent e.text

theorem solid_source : Solid e.fragment.source := by
  obtain ⟨hsource, hne⟩ := Fragment.source_of_parse e.accepted
  rw [hsource]
  exact solid_trim hne

theorem feed_not_mem_opening : '\n' ∉ e.opening := by
  have hwrapped := e.wrapped
  simp only [List.mem_cons, List.not_mem_nil, or_false, Prod.mk.injEq] at hwrapped
  rcases hwrapped with ⟨h, _⟩ | ⟨h, _⟩ | ⟨h, _⟩
  all_goals rw [h]; decide

theorem solid_text : Solid e.text := by
  obtain ⟨d, hlast, hd⟩ := e.solid_source.last
  have hwrapped := e.wrapped
  simp only [List.mem_cons, List.not_mem_nil, or_false, Prod.mk.injEq] at hwrapped
  rw [text]
  rcases hwrapped with ⟨ho, hcl⟩ | ⟨ho, hcl⟩ | ⟨ho, hcl⟩
  · rw [ho, hcl, List.nil_append, List.append_nil]
    exact e.solid_source
  · rw [ho, hcl, List.append_nil]
    have hend : ("() => ".toList ++ e.fragment.source).getLast? = some d := by
      rw [List.getLast?_append, hlast]
      rfl
    exact ⟨⟨'(', rfl, by decide⟩, d, hend, hd⟩
  · rw [ho, hcl]
    have hend : ("() => (".toList ++ e.fragment.source ++ [')']).getLast? = some ')' :=
      List.getLast?_concat
    exact ⟨⟨'(', rfl, by decide⟩, ')', hend, by decide⟩

/-- A template of the expression stands in an object literal as `relay` says, and it keeps its bytes exactly
if its lines keep their places. -/
def LaysTemplates (object : List Char) : Prop :=
  CleanlyIndented e.text → ∀ before t behind, e.fragment.source = before ++ t ++ behind →
    t.head? = some '\x60' → t.getLast? = some '\x60' →
      (∃ front rest, object = front ++ relay (lostIndent e.text) (decide ('\n' ∉ before)) t ++ rest) ∧
        (relay (lostIndent e.text) (decide ('\n' ∉ before)) t = t ↔
          Unmoved (lostIndent e.text) (decide ('\n' ∉ before)) t)

theorem laysTemplates {properties : List (List Char)} (h : e.property ∈ properties) :
    e.LaysTemplates (renderObject properties) := by
  intro hclean before t behind hsource hhead hlast
  have hsolid : Solid t := ⟨⟨_, hhead, by decide⟩, _, hlast, by decide⟩
  have htext : e.text = (e.opening ++ before) ++ t ++ (behind ++ e.closing) := by
    rw [text, hsource]
    simp only [List.append_assoc]
  have hfirst : decide ('\n' ∉ e.opening ++ before) = decide ('\n' ∉ before) := by
    simp [e.feed_not_mem_opening]
  obtain ⟨⟨front, rest, hproperty⟩, hkept⟩ :=
    exists_relay htext hsolid e.solid_text hclean e.feed_not_mem_lead e.lead_ne
  rw [hfirst] at hproperty hkept
  refine ⟨?_, hkept⟩
  obtain ⟨ps, qs, rfl⟩ := List.append_of_mem h
  have hwritten : renderObject (ps ++ e.property :: qs) =
      "\x7b\n".toList ++ ps.flatMap (fun p => indentProperty p ++ [',', '\n']) ++
        indentProperty e.property ++ ([',', '\n'] ++
          qs.flatMap (fun p => indentProperty p ++ [',', '\n']) ++ ['\x7d']) := by
    rw [renderObject, if_neg (by simp)]
    simp only [List.flatMap_append, List.flatMap_cons, List.append_assoc]
  rw [hwritten, property, hproperty]
  exact ⟨"\x7b\n".toList ++ ps.flatMap (fun p => indentProperty p ++ [',', '\n']) ++ front,
    rest ++ ([',', '\n'] ++ qs.flatMap (fun p => indentProperty p ++ [',', '\n']) ++ ['\x7d']),
    by simp only [List.append_assoc]⟩

/-- What holds in an object literal holds in the statement around it. -/
theorem LaysTemplates.around {e : Embedding dialect source} {object : List Char}
    (h : e.LaysTemplates object) (u v : List Char) : e.LaysTemplates (u ++ object ++ v) := by
  intro hclean before t behind hsource hhead hlast
  obtain ⟨⟨front, rest, hobject⟩, hkept⟩ := h hclean before t behind hsource hhead hlast
  refine ⟨⟨u ++ front, rest ++ v, ?_⟩, hkept⟩
  rw [hobject]
  simp only [List.append_assoc]

end Embedding

/-- The expression of an attribute. -/
def expression? : Attribute → Option (List Char)
  | .property _ (some (.expression source)) => some source
  | .spread source => some source
  | _ => none

theorem feed_not_mem_quoted (value : List Char) : '\n' ∉ Naming.quoted value := by
  have hchar : ∀ c, '\n' ∉ Naming.quotedChar c := by
    intro c
    rw [Naming.quotedChar]
    split
    · decide
    · split
      · decide
      · split
        · decide
        · rename_i hfeed
          split
          · decide
          · have hne : c ≠ '\n' := by simpa using hfeed
            exact fun hmem => hne (List.mem_singleton.mp hmem).symm
  rw [Naming.quoted]
  simp only [List.mem_cons, List.mem_append, List.mem_flatMap, List.not_mem_nil, or_false, not_or,
    not_exists, not_and]
  exact ⟨⟨by decide, fun c _ => hchar c⟩, by decide⟩

theorem feed_not_mem_propertyKey (name : List Char) : '\n' ∉ Naming.propertyKey name := by
  rw [Naming.propertyKey]
  split
  · rename_i hname
    intro hmem
    cases name with
    | nil => cases hmem
    | cons c w =>
        rw [Naming.isIdentifierName, Bool.and_eq_true] at hname
        rcases List.mem_cons.mp hmem with rfl | hmem
        · exact absurd hname.1 (by decide)
        · exact absurd (List.all_eq_true.mp hname.2 _ hmem) (by decide)
  · exact feed_not_mem_quoted name

/-- The expression of an attribute goes into its property. -/
theorem exists_embedding_of_property {owner : String} {a : Attribute} {p : List Char}
    (h : property dialect owner a = .ok p) (hexpression : expression? a = some source) :
    ∃ e : Embedding dialect source, e.property = p := by
  have hplain : (([] : List Char), ([] : List Char)) ∈
      [([], []), ("() => ".toList, []), ("() => (".toList, [')'])] := by simp
  cases a with
  | property name value =>
      rcases value with _ | ⟨text⟩ | ⟨text⟩
      · cases hexpression
      · cases hexpression
      · cases hexpression
        obtain ⟨f, hf, rfl⟩ := map_eq_ok_iff.mp h
        have hkey : '\n' ∉ Naming.propertyKey name ++ [':', ' '] := by
          simp [feed_not_mem_propertyKey]
        refine ⟨⟨f, _, hf, Naming.propertyKey name ++ [':', ' '], by simp, hkey, [], [], hplain⟩, ?_⟩
        simp [Embedding.property, Embedding.text, keyed]
  | spread text =>
      cases hexpression
      obtain ⟨f, hf, rfl⟩ := map_eq_ok_iff.mp h
      refine ⟨⟨f, _, hf, "...".toList, by decide, by decide, [], [], hplain⟩, ?_⟩
      simp [Embedding.property, Embedding.text]

/-- The expression that the body of a story is rendered from. -/
def bodyExpression? (dialect : Dialect) (s : Story) : Option (List Char) :=
  match s.children.filter fun n => !n.isBlank with
  | .expression value _ :: _ => some value
  | .element tag children :: _ =>
    if dialect.supportsTags then some (Node.print (.element tag children)) else none
  | _ => none

/-- How the render function of a story is written, with the reader of expressions. -/
inductive Rendered (parse : ExpressionReader) (dialect : Dialect) (s : Story) : Option (List Char) → Prop
  | absent (hbody : bodyExpression? dialect s = none) : Rendered parse dialect s none
  | expression {value : List Char} {flow : Bool} {rest : List Node} {context : String} {f : Fragment}
      (hbody : (s.children.filter fun n => !n.isBlank) = .expression value flow :: rest)
      (hparse : parse value dialect context = .ok f) :
      Rendered parse dialect s (some (dedent (if f.isBoundFunction then f.source else f.thunk)))
  | element {tag : Tag} {children rest : List Node} {context : String} {f : Fragment}
      (hbody : (s.children.filter fun n => !n.isBlank) = .element tag children :: rest)
      (htags : dialect.supportsTags = true)
      (hparse : parse (Node.print (.element tag children)) dialect context = .ok f) :
      Rendered parse dialect s (some (dedent f.thunk))

theorem rendered_of_renderStory {parse : ExpressionReader} {s : Story} {render : Option (List Char)}
    {remarks : List Diagnostic} (h : renderStoryWith parse dialect s = .ok (render, remarks)) :
    Rendered parse dialect s render := by
  rw [renderStoryWith] at h
  cases hchildren : s.children.filter fun n => !n.isBlank with
  | nil =>
      rw [hchildren] at h
      cases h
      exact .absent (by rw [bodyExpression?, hchildren])
  | cons n more =>
      rw [hchildren] at h
      -- Further children add a remark and nothing else.
      obtain ⟨remarks', hnode⟩ : ∃ remarks', renderNodeWith parse dialect s n = .ok (render, remarks') := by
        cases more with
        | nil => exact ⟨remarks, h⟩
        | cons m more =>
            obtain ⟨⟨r, remarks'⟩, hnode, hr⟩ := map_eq_ok_iff.mp h
            cases hr
            exact ⟨remarks', hnode⟩
      cases n with
      | expression value flow =>
          obtain ⟨f, hf, hrender⟩ := map_eq_ok_iff.mp hnode
          cases hrender
          exact .expression hchildren hf
      | element tag children =>
          rw [renderNodeWith] at hnode
          split at hnode
          · rename_i htags
            obtain ⟨f, hf, hrender⟩ := map_eq_ok_iff.mp hnode
            cases hrender
            exact .element hchildren htags hf
          · rename_i htags
            cases hnode
            exact .absent (by rw [bodyExpression?, hchildren]; exact if_neg htags)
      | text value =>
          cases hnode
          exact .absent (by rw [bodyExpression?, hchildren])
      | script value =>
          cases hnode
          exact .absent (by rw [bodyExpression?, hchildren])

theorem exists_wrapped (f : Fragment) : ∃ opening closing, f.thunk = opening ++ f.source ++ closing ∧
    (opening, closing) ∈ [([], []), ("() => ".toList, []), ("() => (".toList, [')'])] := by
  rw [Fragment.thunk]
  split
  · exact ⟨"() => (".toList, [')'], rfl, by simp⟩
  · exact ⟨"() => ".toList, [], by simp, by simp⟩

/-- The expression of a body goes into the render function of its story. -/
theorem Rendered.exists_embedding {s : Story} {render : Option (List Char)}
    (h : Rendered Fragment.parse dialect s render) (hbody : bodyExpression? dialect s = some source) :
    ∃ e : Embedding dialect source, e.lead = "render: ".toList ∧ render = some (dedent e.text) := by
  cases h with
  | absent hnone =>
      rw [hnone] at hbody
      cases hbody
  | @expression value flow rest context f hchildren hparse =>
      rw [bodyExpression?, hchildren] at hbody
      cases hbody
      obtain ⟨opening, closing, htext, hwrapped⟩ : ∃ opening closing,
          (if f.isBoundFunction then f.source else f.thunk) = opening ++ f.source ++ closing ∧
            (opening, closing) ∈ [([], []), ("() => ".toList, []), ("() => (".toList, [')'])] := by
        split
        · exact ⟨[], [], by simp, by simp⟩
        · exact exists_wrapped f
      refine ⟨⟨f, _, hparse, "render: ".toList, by decide, by decide, opening, closing, hwrapped⟩, rfl, ?_⟩
      rw [htext]
      rfl
  | @element tag children rest context f hchildren htags hparse =>
      rw [bodyExpression?, hchildren] at hbody
      obtain rfl := Option.some.inj ((if_pos htags).symm.trans hbody)
      obtain ⟨opening, closing, htext, hwrapped⟩ := exists_wrapped f
      refine ⟨⟨f, _, hparse, "render: ".toList, by decide, by decide, opening, closing, hwrapped⟩, rfl, ?_⟩
      rw [htext]
      rfl

/-! ## Statements -/

/-- The expressions of attributes go into their properties. -/
theorem exists_embedding_of_mapM {owner : String} {attributes : List Attribute} {ps : List (List Char)}
    (h : attributes.mapM (property dialect owner) = .ok ps)
    (hsource : source ∈ attributes.filterMap expression?) :
    ∃ e : Embedding dialect source, e.property ∈ ps := by
  obtain ⟨a, ha, hexpression⟩ := List.mem_filterMap.mp hsource
  have hall := mapM_eq_ok_iff.mp h
  obtain ⟨p, hp, hproperty⟩ : ∃ p ∈ ps, property dialect owner a = .ok p := by
    induction hall with
    | nil => cases ha
    | @cons b q _ _ hq _ ih =>
        rcases List.mem_cons.mp ha with rfl | hmem
        · exact ⟨q, List.mem_cons_self, hq⟩
        · obtain ⟨p, hp, hproperty⟩ := ih (mapM_eq_ok_iff.mpr ‹_›)
            (List.mem_filterMap.mpr ⟨a, hmem, hexpression⟩) hmem
          exact ⟨p, List.mem_cons_of_mem _ hp, hproperty⟩
  obtain ⟨e, rfl⟩ := exists_embedding_of_property hproperty hexpression
  exact ⟨e, hp⟩

/-- The expressions of a story. -/
def storyExpressions (dialect : Dialect) (s : Story) : List (List Char) :=
  (bodyExpression? dialect s).toList ++ s.attributes.filterMap expression?

theorem exists_embedding_of_storyProperties {s : Story} {ps : List (List Char)}
    {remarks : List Diagnostic} (h : storyProperties dialect s = .ok (ps, remarks))
    (hsource : source ∈ storyExpressions dialect s) :
    ∃ e : Embedding dialect source, e.property ∈ ps := by
  obtain ⟨⟨render, _⟩, hrender, h⟩ := bind_eq_ok_iff.mp h
  obtain ⟨attributes, hattributes, h⟩ := bind_eq_ok_iff.mp h
  cases h
  rcases List.mem_append.mp hsource with hbody | hattribute
  · have hrendered := rendered_of_renderStory hrender
    obtain ⟨e, hlead, rfl⟩ := hrendered.exists_embedding (Option.mem_toList.mp hbody)
    refine ⟨e, List.mem_append_left _ ?_⟩
    rw [Embedding.property, hlead]
    exact List.mem_singleton_self _
  · obtain ⟨e, he⟩ := exists_embedding_of_mapM hattributes hattribute
    exact ⟨e, List.mem_append_right _ (List.mem_cons_of_mem _ he)⟩

/-- Every expression of the metadata and of a story goes into the export of its element, and there every
template of it stands as `relay` says: on one line with its bytes, over several lines with its bytes exactly if
no line of it moves. -/
theorem exports_lay_templates (dialect : Dialect) :
    (∀ attributes statement remarks,
      metadataExport dialect (some attributes) = .ok (statement, remarks) →
        ∀ source ∈ attributes.filterMap expression?,
          ∃ e : Embedding dialect source, e.LaysTemplates statement.text) ∧
    (∀ s ps remarks, storyProperties dialect s = .ok (ps, remarks) →
        ∀ source ∈ storyExpressions dialect s,
          ∃ e : Embedding dialect source, ∀ key, e.LaysTemplates (storyExport key ps).text) := by
  constructor
  · intro attributes statement remarks h source hsource
    obtain ⟨ps, hps, hstatement⟩ := map_eq_ok_iff.mp h
    cases hstatement
    obtain ⟨e, he⟩ := exists_embedding_of_mapM hps hsource
    exact ⟨e, (e.laysTemplates he).around _ _⟩
  · intro s ps remarks h source hsource
    obtain ⟨e, he⟩ := exists_embedding_of_storyProperties h hsource
    exact ⟨e, fun key => (e.laysTemplates he).around _ _⟩

/-- The metadata of an element with one expression. -/
theorem metadataExport_expression {name value : List Char} {tree : Tree}
    (h : ∀ context, Fragment.parse value dialect context = .ok ⟨trim value, tree⟩) :
    metadataExport dialect (some [.property name (some (.expression value))]) =
      .ok (defaultExport [keyed name (dedent (trim value))], []) := by
  have hall : [Attribute.property name (some (.expression value))].mapM
      (property dialect "\x60Meta\x60") = .ok [keyed name (dedent (trim value))] := by
    refine mapM_eq_ok_iff.mpr (.cons ?_ .nil)
    rw [property, propertyWith, h]
    rfl
  rw [metadataExport, hall]
  rfl

/-- An object over several lines with a template that goes over two of them. -/
def levelObject : List Char :=
  "\x7b\n    t: \x60x\n      y\x60,\n  \x7d".toList

/-- The lines of the object share the indentation that a property gets, and the template keeps its bytes. -/
theorem exports_lay_templates_level :
    ∃ statement, metadataExport .tsx (some [.property ['a'] (some (.expression levelObject))]) =
        .ok (statement, []) ∧
      ∃ front rest, statement.text = front ++ "\x60x\n      y\x60".toList ++ rest := by
  have haccepted : ((Module.parse? Dialect.tsx.features (Fragment.wrap (trim levelObject))).bind
      Fragment.expressionOf?).isSome = true := by decide +kernel
  obtain ⟨tree, htree⟩ := Option.isSome_iff_exists.mp haccepted
  have hexport := @metadataExport_expression .tsx ['a'] levelObject tree
    fun _ => Fragment.parse_eq_ok (by decide) htree
  obtain ⟨e, he⟩ := (exports_lay_templates .tsx).1 _ _ _ hexport levelObject (by simp [expression?])
  have hsource : e.fragment.source = levelObject := (Fragment.source_of_parse e.accepted).1
  have hlines : ∃ last, (lines e.text).tail =
      ["    t: \x60x".toList, "      y\x60,".toList, "  \x7d".toList ++ last] ∧ lostIndent e.text = 2 := by
    have hwrapped := e.wrapped
    simp only [List.mem_cons, List.not_mem_nil, or_false, Prod.mk.injEq] at hwrapped
    rw [lostIndent, Embedding.text, hsource]
    -- A function around the object changes its first and its last line only.
    rcases hwrapped with ⟨ho, hcl⟩ | ⟨ho, hcl⟩ | ⟨ho, hcl⟩
    · rw [ho, hcl]
      exact ⟨[], by decide, by decide⟩
    · rw [ho, hcl]
      exact ⟨[], by decide, by decide⟩
    · rw [ho, hcl]
      exact ⟨[')'], by decide, by decide⟩
  obtain ⟨last, htail, hlost⟩ := hlines
  have hclean : CleanlyIndented e.text := by
    intro l hl _
    rw [htail] at hl
    rw [hlost]
    simp only [List.mem_cons, List.not_mem_nil, or_false] at hl
    refine ⟨indent, ?_, rfl⟩
    rcases hl with rfl | rfl | rfl
    · decide
    · decide
    · rfl
  obtain ⟨⟨front, rest, htext⟩, hkept⟩ := he hclean "\x7b\n    t: ".toList "\x60x\n      y\x60".toList
    ",\n  \x7d".toList hsource rfl rfl
  have hunmoved : Unmoved 2 false "\x60x\n      y\x60".toList := by
    intro first more hpieces
    have hread : pieces "\x60x\n      y\x60".toList = ["\x60x".toList, "      y\x60".toList] := by decide
    rw [hread] at hpieces
    obtain ⟨rfl, rfl⟩ := List.cons.inj hpieces
    refine .inr ⟨by decide, ?_⟩
    rw [List.forall_mem_singleton]
    exact .inr ⟨rfl, ⟨"    y\x60".toList, rfl⟩, '\x60', rfl, by decide⟩
  have hfirst : decide ('\n' ∉ "\x7b\n    t: ".toList) = false := by decide
  rw [hfirst, hlost] at htext hkept
  rw [hkept.mpr hunmoved] at htext
  exact ⟨_, hexport, front, rest, htext⟩

/-- A template whose second line has no indentation. -/
def flushTemplate : List Char :=
  "\x60x\ny\x60".toList

/-- In the object literal its second line is indented. -/
theorem flushTemplate_moved :
    ∃ f statement, (∀ context, Fragment.parse flushTemplate .tsx context = .ok f) ∧
      f.tree.kind = .template ∧ f.source = flushTemplate ∧
      metadataExport .tsx (some [.property ['a'] (some (.expression flushTemplate))]) =
        .ok (statement, []) ∧
      ¬ flushTemplate <:+: statement.text := by
  have htemplate : ((Module.parse? Dialect.tsx.features (Fragment.wrap (trim flushTemplate))).bind
      Fragment.expressionOf?).map Tree.kind = some .template := by decide +kernel
  obtain ⟨tree, htree, hkind⟩ := Option.map_eq_some_iff.mp htemplate
  have hparse : ∀ context, Fragment.parse flushTemplate .tsx context = .ok ⟨trim flushTemplate, tree⟩ :=
    fun _ => Fragment.parse_eq_ok (by decide) htree
  have htrim : trim flushTemplate = flushTemplate := by decide
  have htext : (defaultExport [keyed ['a'] (dedent (trim flushTemplate))]).text =
      "export default \x7b\n  a: \x60x\n  y\x60,\n\x7d;".toList := by decide
  refine ⟨⟨trim flushTemplate, tree⟩, _, hparse, hkind, htrim, metadataExport_expression hparse, ?_⟩
  rw [htext]
  decide +kernel

end Synthesis
end StoryDocs
