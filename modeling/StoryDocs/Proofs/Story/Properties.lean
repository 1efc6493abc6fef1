import StoryDocs.Proofs.Script.Returned
import StoryDocs.Proofs.Story.Attributes
import StoryDocs.Proofs.Story.Moving
import StoryDocs.Proofs.Story.Unindenting

/-!
# Properties of the syntax

Every attribute of the metadata or of a story becomes one member of an object literal.  Each expression was accepted
between brackets, and stands in front of a comma.  If it is one value of the syntax that no comment goes beyond, and
its lines are cut between characters, every reader of the syntax reads the object literal back with these members.
-/

namespace StoryDocs
namespace Synthesis

open Text Markup Script

variable {tags : Bool} {dialect : Dialect} {parse? : ModuleReader} {source text t p l : List Char}
  {ls ps : List (List Char)}
  {shape : Shape} {shapes : List Shape} {name owner context : String} {s : Story}

/-! ## Expressions that can be moved -/

/-- An expression that can be put into a property: one value, that no comment goes beyond, in lines that are cut
between characters. -/
def Movable (tags : Bool) (source : List Char) : Prop :=
  (∃ shape, Core tags (.list .value false) (trim source) [shape]) ∧ CleanlyIndented (trim source)

/-- An attribute whose name can be a key and whose expression can be moved. -/
def MovableAttribute (tags : Bool) : Attribute → Prop
  | .property name (some (.expression source)) => WordKey name ∧ Movable tags source
  | .property name _ => WordKey name
  | .spread source => Movable tags source

/-- A body that can be moved with the arrow of its function in front: no object literal but a whole one starts with
a brace. -/
def MovableBody (tags : Bool) (source : List Char) : Prop :=
  (∃ shape, Core tags (.list .value false) (trim source) [shape] ∧
    (shape.kind = .object ∨ StartsNoBrace (trim source))) ∧
    CleanlyIndented (trim source)

/-- A story whose attributes and body can be moved. -/
structure MovableStory (dialect : Dialect) (s : Story) : Prop where
  attributes : ∀ a ∈ s.attributes, MovableAttribute dialect.features.tags a
  body : ∀ source, bodyExpression? dialect s = some source → MovableBody dialect.features.tags source

/-! ## Members -/

/-- A property that is a member of the syntax, with a gap behind it. -/
def CoreMember (tags : Bool) (p : List Char) (shape : Shape) : Prop :=
  ∃ m g, indentProperty p = indent ++ (m ++ g) ∧ IsGap g ∧ Core tags (.one .member) m [shape]

theorem isMemberKey_propertyKey {name : List Char} (hname : WordKey name) :
    IsMemberKey (Naming.propertyKey name) (keyShape name) := by
  unfold Naming.propertyKey keyShape
  split
  · rename_i hidentifier
    exact .word (hname hidentifier)
  · rw [quoted_eq_written]
    exact .string (.inr rfl) name

theorem coreMember_keyed {name : List Char} (hname : WordKey name) (hlines : lines t = l :: ls) (hl : l ≠ [])
    (hvalue : Core tags (.list .value false) (hanging t) [shape]) :
    CoreMember tags (keyed name t) (.node .property "" [keyShape name, shape]) := by
  have hfeed : '\n' ∉ Naming.propertyKey name ++ [':', ' '] := by simp [feed_not_mem_propertyKey]
  have htext : keyed name t = Naming.propertyKey name ++ [':', ' '] ++ t := by simp [keyed]
  obtain ⟨g, body, g', hbody, hg, hg', hcore⟩ := hvalue.exists_entry
  refine ⟨_, g', ?_, hg', .property (isMemberKey_propertyKey hname) .nil (isGap_space.append hg) hcore⟩
  rw [htext, indentProperty_append hlines hl hfeed, hbody]
  simp

theorem coreMember_spread (hlines : lines t = l :: ls) (hl : l ≠ [])
    (hvalue : Core tags (.list .value false) (hanging t) [shape]) :
    CoreMember tags ("...".toList ++ t) (.node .spread "" [shape]) := by
  obtain ⟨g, body, g', hbody, hg, hg', hcore⟩ := hvalue.exists_entry
  refine ⟨_, g', ?_, hg', .memberSpread hg hcore⟩
  rw [indentProperty_append hlines hl (by decide), hbody]
  simp

/-- A value on one line is a value of its property. -/
theorem coreMember_line {name : List Char} (hname : WordKey name) (hfeed : '\n' ∉ t) (hne : t ≠ [])
    (hvalue : Core tags .value t [shape]) : CoreMember tags (keyed name t)
      (.node .property "" [keyShape name, shape]) := by
  refine coreMember_keyed hname (lines_of_not_mem hfeed hne) hne ?_
  rw [hanging_of_not_mem hfeed hne]
  exact hvalue.single

/-- The properties of an object literal are the members of one. -/
theorem core_laidMembers (h : List.Forall₂ (CoreMember tags) ps shapes) :
    ∃ comma, Core tags (.list .member comma) (laidMembers ps ++ ['\n']) shapes := by
  induction h with
  | nil => exact ⟨false, .nil isGap_feed⟩
  | @cons p shape ps shapes hp _ ih =>
      obtain ⟨comma, hrest⟩ := ih
      obtain ⟨m, g, hlaid, hg, hcore⟩ := hp
      have hlist := Core.cons (isGap_indent) hcore hg hrest
      refine ⟨shapes.isEmpty || comma, ?_⟩
      rw [laidMembers, List.flatMap_cons, hlaid]
      simpa [laidMembers] using hlist

theorem core_renderObject (h : List.Forall₂ (CoreMember tags) ps shapes) :
    ∃ comma, Core tags .value (renderObject ps) [.node .object comma shapes] := by
  by_cases hps : ps = []
  · subst hps
    cases h
    have hempty : Core tags .value "\x7b\x7d".toList _ := (Core.object (.nil .nil)).alone
    exact ⟨_, hempty⟩
  · obtain ⟨comma, hmembers⟩ := core_laidMembers h
    have hobject := (Core.object hmembers).alone
    rw [renderObject_eq hps]
    exact ⟨_, by simpa using hobject⟩

/-! ## Attributes -/

/-- The member that an attribute becomes, with the reader of expressions. -/
inductive MemberOf (parse : ExpressionReader) (dialect : Dialect) : Attribute → Shape → Prop
  | flag (name : List Char) : MemberOf parse dialect (.property name none)
      (.node .property "" [keyShape name, .node .boolean "true" []])
  | literal (name text : List Char) : MemberOf parse dialect (.property name (some (.literal text)))
      (.node .property "" [keyShape name, .node .string (String.ofList text) []])
  | expression (name : List Char) {source : List Char} {context : String} {f : Fragment}
      (hparse : parse source dialect context = .ok f) :
      MemberOf parse dialect (.property name (some (.expression source)))
        (.node .property "" [keyShape name, f.tree.shape])
  | spread {source : List Char} {context : String} {f : Fragment} (hparse : parse source dialect context = .ok f) :
      MemberOf parse dialect (.spread source) (.node .spread "" [f.tree.shape])

/-- An accepted expression that can be moved is in its property what it was accepted as. -/
theorem Movable.core_hanging {f : Fragment} (h : Movable tags source) (hparser : ReadsCore parse?)
    (htags : dialect.features.Allow tags)
    (hparse : Fragment.parseWith parse? source dialect context = .ok f) :
    Solid f.source ∧ Core tags (.list .value false) (hanging (dedent f.source)) [f.tree.shape] := by
  obtain ⟨⟨shape, hcore⟩, hclean⟩ := h
  obtain ⟨hsource, hne⟩ := Fragment.source_of_parse hparse
  rw [← hsource] at hcore hclean
  have hshape : f.tree.shape = shape :=
    Fragment.shape_tree hparser htags hparse (hcore.gap_behind isGap_feed _ _ rfl) (List.cons_ne_nil _ _)
  have hsolid : Solid f.source := hsource ▸ solid_trim hne
  rw [hshape]
  exact ⟨hsolid, Synthesis.core_hanging hcore hsolid hclean⟩

/-- The property of an attribute that can be moved is the member the attribute becomes. -/
theorem exists_coreMember {a : Attribute} (hparser : ReadsCore parse?) (htags : dialect.features.Allow tags)
    (h : propertyWith (Fragment.parseWith parse?) dialect owner a = .ok p) (ha : MovableAttribute tags a) :
    ∃ shape, MemberOf (Fragment.parseWith parse?) dialect a shape ∧ CoreMember tags p shape := by
  cases a with
  | property name value =>
      rcases value with _ | ⟨text⟩ | ⟨source⟩
      · cases h
        exact ⟨_, .flag name, coreMember_line ha (by decide) (by decide) core_true⟩
      · cases h
        exact ⟨_, .literal name text, coreMember_line ha (feed_not_mem_quoted text) (quoted_ne_nil text)
          (core_quoted text)⟩
      · obtain ⟨hname, hmovable⟩ := ha
        obtain ⟨f, hf, rfl⟩ := map_eq_ok_iff.mp h
        obtain ⟨hsolid, hcore⟩ := hmovable.core_hanging hparser htags hf
        obtain ⟨l, ls, hlines, hl⟩ := hsolid.exists_lines_dedent
        exact ⟨_, .expression name hf, coreMember_keyed hname hlines hl hcore⟩
  | spread source =>
      obtain ⟨f, hf, rfl⟩ := map_eq_ok_iff.mp h
      obtain ⟨hsolid, hcore⟩ := Movable.core_hanging ha hparser htags hf
      obtain ⟨l, ls, hlines, hl⟩ := hsolid.exists_lines_dedent
      exact ⟨_, .spread hf, coreMember_spread hlines hl hcore⟩

theorem exists_coreMembers {attributes : List Attribute} (hparser : ReadsCore parse?)
    (htags : dialect.features.Allow tags)
    (h : attributes.mapM (propertyWith (Fragment.parseWith parse?) dialect owner) = .ok ps)
    (hattributes : ∀ a ∈ attributes, MovableAttribute tags a) :
    ∃ shapes, List.Forall₂ (MemberOf (Fragment.parseWith parse?) dialect) attributes shapes ∧
      List.Forall₂ (CoreMember tags) ps shapes := by
  have hall := mapM_eq_ok_iff.mp h
  clear h
  induction hall with
  | nil => exact ⟨[], .nil, .nil⟩
  | cons hp _ ih =>
      rw [List.forall_mem_cons] at hattributes
      obtain ⟨shape, hmember, hcore⟩ := exists_coreMember hparser htags hp hattributes.1
      obtain ⟨shapes, hmembers, hcores⟩ := ih hattributes.2
      exact ⟨shape :: shapes, .cons hmember hmembers, .cons hcore hcores⟩

/-! ## Stories -/

/-- The value of the render function of a story, with the reader of expressions. -/
inductive RenderOf (parse : ExpressionReader) (dialect : Dialect) (s : Story) : Option Shape → Prop
  | absent (hbody : bodyExpression? dialect s = none) : RenderOf parse dialect s none
  | expression {value : List Char} {flow : Bool} {rest : List Node} {context : String} {f : Fragment}
      (hbody : (s.children.filter fun n => !n.isBlank) = .expression value flow :: rest)
      (hparse : parse value dialect context = .ok f) :
      RenderOf parse dialect s (some (if f.isBoundFunction then f.tree.shape else thunkShape f.returnedShape))
  | element {tag : Tag} {children rest : List Node} {context : String} {f : Fragment}
      (hbody : (s.children.filter fun n => !n.isBlank) = .element tag children :: rest)
      (htags : dialect.supportsTags = true)
      (hparse : parse (Node.print (.element tag children)) dialect context = .ok f) :
      RenderOf parse dialect s (some (thunkShape f.returnedShape))

/-- The member of a render function. -/
def renderMember (value : Shape) : Shape :=
  .node .property "" [keyShape "render".toList, value]

/-- The member of the name of a story. -/
def nameMember (s : Story) : Shape :=
  .node .property "" [keyShape "name".toList, .node .string (String.ofList s.name) []]

theorem MovableBody.movable (h : MovableBody tags source) : Movable tags source := by
  obtain ⟨⟨shape, hcore, _⟩, hclean⟩ := h
  exact ⟨⟨shape, hcore⟩, hclean⟩

theorem solid_thunk {f : Fragment} (hparse : Fragment.parseWith parse? source dialect context = .ok f) :
    Solid f.thunk := by
  have htrim := Fragment.trim_thunk hparse
  rw [← htrim]
  refine solid_trim ?_
  rw [htrim, Fragment.thunk_eq]
  simp

theorem cleanlyIndented_thunk {f : Fragment} (hparse : Fragment.parseWith parse? source dialect context = .ok f)
    (hclean : CleanlyIndented f.source) : CleanlyIndented f.thunk := by
  obtain ⟨hsource, hne⟩ := Fragment.source_of_parse hparse
  obtain ⟨opening, closing, htext, hopening, hclosing⟩ := f.exists_thunk_eq
  rw [htext]
  exact hclean.around (hsource ▸ solid_trim hne) hopening hclosing

/-- The function of a body that can be moved is in its property what it says. -/
theorem MovableBody.core_thunk {f : Fragment} (h : MovableBody tags source) (hparser : ReadsCore parse?)
    (htags : dialect.features.Allow tags)
    (hparse : Fragment.parseWith parse? source dialect context = .ok f) :
    Solid f.thunk ∧ Core tags (.list .value false) (hanging (dedent f.thunk)) [thunkShape f.returnedShape] := by
  obtain ⟨⟨shape, hcore, hopen⟩, hclean⟩ := h
  obtain ⟨hsource, hne⟩ := Fragment.source_of_parse hparse
  rw [← hsource] at hcore hclean hopen
  have hshape : f.tree.shape = shape :=
    Fragment.shape_tree hparser htags hparse (hcore.gap_behind isGap_feed _ _ rfl) (List.cons_ne_nil _ _)
  have hthunk := solid_thunk hparse
  rw [← hshape] at hcore hopen
  exact ⟨hthunk, Synthesis.core_hanging (Fragment.core_thunk hcore hopen) hthunk (cleanlyIndented_thunk hparse hclean)⟩

/-- The render function of a story whose body can be moved. -/
theorem exists_coreRender {render : List Char} (hparser : ReadsCore parse?) (htags : dialect.features.Allow tags)
    (h : Rendered (Fragment.parseWith parse?) dialect s (some render))
    (hbody : ∀ source, bodyExpression? dialect s = some source → MovableBody tags source) :
    ∃ shape, RenderOf (Fragment.parseWith parse?) dialect s (some shape) ∧
      CoreMember tags ("render: ".toList ++ render) (renderMember shape) := by
  have hmember : ∀ {text shape}, Solid text → Core tags (.list .value false) (hanging (dedent text)) [shape] →
      CoreMember tags ("render: ".toList ++ dedent text) (renderMember shape) := by
    intro text shape hsolid hcore
    obtain ⟨l, ls, hlines, hl⟩ := hsolid.exists_lines_dedent
    rw [keyed_render]
    exact coreMember_keyed wordKey_render hlines hl hcore
  cases h with
  | expression hchildren hparse =>
      have hmovable := hbody _ (by rw [bodyExpression?, hchildren])
      refine ⟨_, .expression hchildren hparse, ?_⟩
      split
      · obtain ⟨hsolid, hcore⟩ := hmovable.movable.core_hanging hparser htags hparse
        exact hmember hsolid hcore
      · obtain ⟨hsolid, hcore⟩ := hmovable.core_thunk hparser htags hparse
        exact hmember hsolid hcore
  | element hchildren hsupports hparse =>
      have hmovable := hbody _ (by rw [bodyExpression?, hchildren]; exact if_pos hsupports)
      obtain ⟨hsolid, hcore⟩ := hmovable.core_thunk hparser htags hparse
      exact ⟨_, .element hchildren hsupports hparse, hmember hsolid hcore⟩

theorem exists_story_coreMembers {remarks : List Diagnostic} (hparser : ReadsCore parse?)
    (h : storyPropertiesWith (Fragment.parseWith parse?) dialect s = .ok (ps, remarks))
    (hmovable : MovableStory dialect s) :
    ∃ render shapes, RenderOf (Fragment.parseWith parse?) dialect s render ∧
      List.Forall₂ (MemberOf (Fragment.parseWith parse?) dialect) s.attributes shapes ∧
      List.Forall₂ (CoreMember dialect.features.tags) ps
        (render.toList.map renderMember ++ nameMember s :: shapes) := by
  obtain ⟨⟨render, _⟩, hrender, h⟩ := bind_eq_ok_iff.mp h
  obtain ⟨attributes, hattributes, h⟩ := bind_eq_ok_iff.mp h
  cases h
  obtain ⟨shapes, hmembers, hcores⟩ := exists_coreMembers hparser id hattributes hmovable.attributes
  have hname : CoreMember dialect.features.tags (keyed "name".toList (Naming.quoted s.name)) (nameMember s) :=
    coreMember_line wordKey_name (feed_not_mem_quoted s.name) (quoted_ne_nil s.name) (core_quoted s.name)
  rw [← keyed_name] at hname
  have hrendered := rendered_of_renderStory hrender
  cases render with
  | none =>
      cases hrendered with
      | absent hbody => exact ⟨none, shapes, .absent hbody, hmembers, .cons hname hcores⟩
  | some render =>
      obtain ⟨shape, hvalue, hcore⟩ := exists_coreRender hparser id hrendered hmovable.body
      exact ⟨some shape, shapes, hvalue, hmembers, .cons hcore (.cons hname hcores)⟩

/-! ## Reading back -/

/-- An object literal that a parser reads back with exactly the given members. -/
def ReadBack (parse? : ModuleReader) (features : Features) (ps : List (List Char)) (shapes : List Shape) : Prop :=
  ∃ tree comma, parse? features (defaultExport ps).text = some [tree] ∧
    tree.shape = .node .exportDefaultExpr "" [.node .object comma shapes]

theorem coreItem_defaultExport (h : List.Forall₂ (CoreMember tags) ps shapes) :
    ∃ comma, CoreItem tags (defaultExport ps).text (.node .exportDefaultExpr "" [.node .object comma shapes]) := by
  obtain ⟨comma, hobject⟩ := core_renderObject h
  have hbrace : (renderObject ps).head? = some '\x7b' := by
    unfold renderObject
    split <;> rfl
  have hitem := CoreItem.default ⟨isGap_space, by decide⟩ isGap_space hobject hbrace .nil
  exact ⟨comma, by simpa [defaultExport] using hitem⟩

theorem readBack (hparser : ReadsCore parse?) {features : Features} (htags : features.Allow tags)
    (h : List.Forall₂ (CoreMember tags) ps shapes) :
    ReadBack parse? features ps shapes := by
  obtain ⟨comma, hitem⟩ := coreItem_defaultExport h
  have hmodule := CoreModule.cons .nil hitem (.nil .nil)
  rw [List.nil_append, List.append_nil] at hmodule
  obtain ⟨items, hitems, hshapes⟩ := hparser htags hmodule
  obtain ⟨tree, rfl, hshape⟩ := List.map_eq_singleton_iff.mp hshapes
  exact ⟨tree, comma, hitems, hshape⟩

/-- Attributes become members one to one, for every parser that reads the syntax.  The object literal of the metadata
has one member for each attribute, and that of a story has them behind its render function and its name, if each
expression is one value of the syntax that can be moved. -/
theorem attributes_read_back (hparser : ReadsCore parse?) (dialect : Dialect) (features : Features)
    (htags : features.Allow dialect.features.tags) :
    (∀ owner attributes ps, attributes.mapM (propertyWith (Fragment.parseWith parse?) dialect owner) = .ok ps →
      (∀ a ∈ attributes, MovableAttribute dialect.features.tags a) →
        ∃ shapes, List.Forall₂ (MemberOf (Fragment.parseWith parse?) dialect) attributes shapes ∧
          ReadBack parse? features ps shapes) ∧
    (∀ s ps remarks, storyPropertiesWith (Fragment.parseWith parse?) dialect s = .ok (ps, remarks) →
      MovableStory dialect s →
        ∃ render shapes, RenderOf (Fragment.parseWith parse?) dialect s render ∧
          List.Forall₂ (MemberOf (Fragment.parseWith parse?) dialect) s.attributes shapes ∧
          ReadBack parse? features ps (render.toList.map renderMember ++ nameMember s :: shapes)) := by
  constructor
  · intro owner attributes ps h hattributes
    obtain ⟨shapes, hmembers, hcores⟩ := exists_coreMembers hparser id h hattributes
    exact ⟨shapes, hmembers, readBack hparser htags hcores⟩
  · intro s ps remarks h hmovable
    obtain ⟨render, shapes, hrender, hmembers, hcores⟩ := exists_story_coreMembers hparser h hmovable
    exact ⟨render, shapes, hrender, hmembers, readBack hparser htags hcores⟩

/-! ## Standing expressions -/

variable {features : Features}

/-- A value of the syntax without tags stands in front of a comma when it is moved. -/
theorem Solid.stands_hanging (hsolid : Solid text) (hcore : Core false .value text [shape])
    (hclean : CleanlyIndented text) :
    Stands features (hanging (dedent text)) shape :=
  stands_of_readsValue (core_hanging hcore hsolid hclean).readsValue (hcore.hasLooseDefault _ List.mem_cons_self)

theorem expressionStands_of_core (hcore : Core false .value (trim source) [shape])
    (hclean : CleanlyIndented (trim source)) :
    ExpressionStands dialect features source := by
  intro context f hparse
  obtain ⟨hsource, hne⟩ := Fragment.source_of_parse hparse
  have hsolid : Solid f.source := hsource ▸ solid_trim hne
  rw [← hsource] at hcore hclean
  have hshape : f.tree.shape = shape :=
    Fragment.shape_tree readsCore_parse? (Features.allow_false _) hparse (hcore.single.gap_behind isGap_feed _ _ rfl)
      (List.cons_ne_nil _ _)
  rw [hshape]
  exact hsolid.stands_hanging hcore hclean

/-- A story stands if its attributes do and its body is a value of the syntax. -/
theorem storyStands_of_core (hattributes : ∀ a ∈ s.attributes, AttributeStands dialect features a)
    (hbody : ∀ source, bodyExpression? dialect s = some source → ∃ shape, Core false .value (trim source) [shape] ∧
      (shape.kind = .object ∨ (trim source).head? ≠ some '\x7b') ∧ CleanlyIndented (trim source)) :
    StoryStands dialect features s := by
  refine ⟨hattributes, fun render remarks hrender => ?_⟩
  have hstands : ∀ {source context f}, bodyExpression? dialect s = some source →
      Fragment.parse source dialect context = .ok f →
        (∃ shape, Stands features (hanging (dedent f.source)) shape) ∧
          ∃ shape, Stands features (hanging (dedent f.thunk)) shape := by
    intro source context f hsome hparse
    obtain ⟨shape, hcore, hopen, hclean⟩ := hbody source hsome
    obtain ⟨hsource, hne⟩ := Fragment.source_of_parse hparse
    have hsolid : Solid f.source := hsource ▸ solid_trim hne
    rw [← hsource] at hcore hopen hclean
    have hshape : f.tree.shape = shape :=
      Fragment.shape_tree readsCore_parse? (Features.allow_false _) hparse (hcore.single.gap_behind isGap_feed _ _ rfl)
        (List.cons_ne_nil _ _)
    have hfunction := hcore
    rw [← hshape] at hfunction hopen
    exact ⟨⟨shape, hsolid.stands_hanging hcore hclean⟩, _, (solid_thunk hparse).stands_hanging
      (Fragment.core_thunk_value hfunction hopen) (cleanlyIndented_thunk hparse hclean)⟩
  cases rendered_of_renderStory hrender with
  | expression hchildren hparse =>
      obtain ⟨hsource, hthunk⟩ := hstands (by rw [bodyExpression?, hchildren]) hparse
      split
      · exact hsource
      · exact hthunk
  | element hchildren htags hparse =>
      exact (hstands (by rw [bodyExpression?, hchildren]; exact if_pos htags) hparse).2

/-! ## Accepted expressions -/

section Accepted

variable {parse : ExpressionReader} {f : Fragment} {value : List Char} {flow : Bool}

theorem propertyWith_expression (h : ∀ context, parse source dialect context = .ok f) (owner : String)
    (name : List Char) :
    propertyWith parse dialect owner (.property name (some (.expression source))) =
      .ok (keyed name (dedent f.source)) := by
  rw [propertyWith, h]
  rfl

theorem propertyWith_spread (h : ∀ context, parse source dialect context = .ok f) (owner : String) :
    propertyWith parse dialect owner (.spread source) = .ok ("...".toList ++ dedent f.source) := by
  rw [propertyWith, h]
  rfl

/-- A story whose body is an expression alone. -/
theorem renderStoryWith_expression (h : ∀ context, parse value dialect context = .ok f)
    (hbody : (s.children.filter fun n => !n.isBlank) = [.expression value flow]) :
    renderStoryWith parse dialect s = .ok (some (dedent (if f.isBoundFunction then f.source else f.thunk)), []) := by
  rw [renderStoryWith, hbody]
  simp only [renderNodeWith]
  rw [h]
  rfl

theorem metadataExport_some {attributes : List Attribute}
    (h : attributes.mapM (property dialect "\x60Meta\x60") = .ok ps) :
    metadataExport dialect (some attributes) = .ok (defaultExport ps, []) := by
  rw [metadataExport, h]
  rfl

theorem storyProperties_some {render : List Char} (h : renderStory dialect s = .ok (some render, []))
    (hattributes : ∀ owner, s.attributes.mapM (property dialect owner) = .ok ps) :
    storyProperties dialect s = .ok (("render: ".toList ++ render) ::
      ("name: ".toList ++ Naming.quoted s.name) :: ps, []) :=
  bind_eq_ok_iff.mpr ⟨_, h, bind_eq_ok_iff.mpr ⟨_, hattributes _, rfl⟩⟩

theorem storyExports_singleton {key : List Char} (h : storyProperties dialect s = .ok (ps, [])) :
    storyExports dialect [(key, s)] = .ok ([storyExport key ps], []) :=
  bind_eq_ok_iff.mpr ⟨_, h, bind_eq_ok_iff.mpr ⟨([], []), rfl, rfl⟩⟩

theorem synthesize_of_exports {preamble : Program} {x : Extraction} {first : Statement} {exports : List Statement}
    (h : metadataExport dialect x.metadata = .ok (first, []))
    (hexports : storyExports dialect x.stories = .ok (exports, [])) :
    synthesize dialect preamble x = .ok (⟨preamble.statements ++ first :: exports⟩, []) :=
  bind_eq_ok_iff.mpr ⟨_, h, bind_eq_ok_iff.mpr ⟨_, hexports, rfl⟩⟩

end Accepted

/-- An object literal over several lines, with a tag and comments among its members. -/
def rowObject : List Char :=
  "\x7b\n      id: row.id, // key\n".toList ++ "      cell: <Cell of=\x7brow\x7d />,\n".toList ++
    "      ...rest /* all */\n    \x7d".toList

theorem trim_rowObject : trim rowObject = rowObject := by
  decide +kernel

theorem core_rowObject : ∃ shape, Core true (.list .value false) rowObject [shape] ∧ shape.kind = .object := by
  have hrow : Core true .primary "row".toList _ := .name (by decide) (by decide) (by decide)
  have hid : IsWord "id".toList := by decide
  have hcell : IsWord "cell".toList := by decide
  have htag : IsTagWord "Cell".toList := .mk (by decide) (by decide)
  have hof : IsTagWord "of".toList := .mk (by decide) (by decide)
  have hrest : Core true .primary "rest".toList _ := .name (by decide) (by decide) (by decide)
  have hfront : IsGap "\n      ".toList := isGap_blank (by decide)
  have hkey : IsGap " // key\n      ".toList :=
    .blank (by decide) (.line (w := " key".toList) (by decide) (by decide) (isGap_blank (by decide)))
  have hall : IsGap " /* all */\n    ".toList :=
    .blank (by decide) (.block (w := " all ".toList) (by decide) (isGap_blank (by decide)))
  have helement := Core.tagged rfl (.lone (.word htag)
    (.valueAttribute ⟨isGap_space, by decide⟩ hof .nil hrow.alone .nil .noAttributes) isGap_space)
  have hspread := Core.last hfront (.memberSpread .nil hrest.alone) hall
  have hcells := Core.cons hkey (.property (.word hcell) .nil isGap_space helement) .nil hspread
  have hmembers := Core.cons hfront
    (.property (.word hid) .nil isGap_space (.operand hrow (.memberStep .nil .nil hid .nothing))) .nil hcells
  have hobject := (Core.object hmembers).alone.single
  exact ⟨_, Eq.subst (motive := (Core true _ · _)) (by decide +kernel) hobject, rfl⟩

theorem exists_parse_rowObject : ∃ f : Fragment, (∀ context, Fragment.parse rowObject .tsx context = .ok f) ∧
    f.source = rowObject ∧ f.tree.kind = .object := by
  obtain ⟨shape, hcore, hkind⟩ := core_rowObject
  obtain ⟨f, hparse, hsource, hshape⟩ := @Fragment.exists_parse_of_core _ rowObject _ .tsx _
    readsCore_parse? id (by decide)
    (hcore.gap_behind isGap_feed _ _ rfl) (List.cons_ne_nil _ _)
  refine ⟨f, hparse, hsource.trans trim_rowObject, ?_⟩
  rw [← kind_shape, hshape, Shape.joined, hkind]

theorem movableBody_rowObject : MovableBody true rowObject := by
  obtain ⟨shape, hcore, hkind⟩ := core_rowObject
  have hnarrow : ∀ l ∈ (lines rowObject).tail, ∀ c ∈ indentation l, isWide c = false := by decide +kernel
  rw [MovableBody, trim_rowObject]
  exact ⟨⟨shape, hcore, .inl hkind⟩, (evenlyIndented_of_narrow hnarrow).cleanly⟩

theorem core_args : Core true (.list .value false) "args".toList [.node .identifier "args" []] :=
  (Core.name (by decide) (by decide) (by decide)).alone.single

theorem movable_args : Movable true "args".toList := by
  have htrim : trim "args".toList = "args".toList := by decide
  have hclean : CleanlyIndented "args".toList := by
    intro l hl
    cases hl
  rw [Movable, htrim]
  exact ⟨⟨_, core_args⟩, hclean⟩

/-- A title, an object under a name that is no identifier, a flag and spread arguments. -/
def panelAttributes : List Attribute :=
  [.property "title".toList (some (.literal "t".toList)), .property "row-type".toList (some (.expression rowObject)),
    .property "flag".toList none, .spread "args".toList]

/-- A story that renders the object. -/
def panelStory : Story :=
  ⟨"primary".toList, panelAttributes, [.expression rowObject false], default⟩

theorem panelAttributes_movable : ∀ a ∈ panelAttributes, MovableAttribute true a := by
  simp only [panelAttributes, List.forall_mem_cons, List.not_mem_nil, false_imp_iff, implies_true, and_true]
  refine ⟨?_, ⟨?_, movableBody_rowObject.movable⟩, ?_, movable_args⟩
  · show WordKey _
    decide
  · decide
  · show WordKey _
    decide

/-- What the attributes become. -/
def panelProperties : List (List Char) :=
  [keyed "title".toList (Naming.quoted "t".toList), keyed "row-type".toList (dedent rowObject),
    keyed "flag".toList "true".toList, "...".toList ++ dedent "args".toList]

theorem panelAttributes_accepted (owner : String) : panelAttributes.mapM (property .tsx owner) =
    .ok panelProperties := by
  obtain ⟨row, hrowParse, hrowSource, _⟩ := exists_parse_rowObject
  obtain ⟨args, hargsParse, hargsSource, _⟩ := @Fragment.exists_parse_of_core _ "args".toList _ .tsx _ readsCore_parse?
    id (by decide) (core_args.gap_behind isGap_feed _ _ rfl) (List.cons_ne_nil _ _)
  have htrim : trim "args".toList = "args".toList := by decide
  rw [htrim] at hargsSource
  have hrowProperty := propertyWith_expression hrowParse owner "row-type".toList
  have hargsProperty := propertyWith_spread hargsParse owner
  rw [hrowSource] at hrowProperty
  rw [hargsSource] at hargsProperty
  exact mapM_eq_ok_iff.mpr (.cons rfl (.cons hrowProperty (.cons rfl (.cons hargsProperty .nil))))

/-- A story whose body is the object has a function that returns it. -/
theorem renderStory_rowObject {flow : Bool} (hbody : (s.children.filter fun n => !n.isBlank) =
    [.expression rowObject flow]) :
    renderStory .tsx s = .ok (some (dedent ("() => (".toList ++ rowObject ++ [')'])), []) := by
  obtain ⟨row, hparse, hsource, hobject⟩ := exists_parse_rowObject
  have hbound : row.isBoundFunction = false := by
    obtain ⟨source, kind, span, name, parts⟩ := row
    rw [show kind = .object from hobject]
    rfl
  have hthunk : row.thunk = "() => (".toList ++ rowObject ++ [')'] := by
    rw [Fragment.thunk, Fragment.isObjectLiteral, hobject, hsource]
    rfl
  have hrender := renderStoryWith_expression hparse hbody
  rw [hbound, if_neg (by decide), hthunk] at hrender
  exact hrender

/-- The metadata has four members, and its story two more in front of them. -/
theorem attributes_read_back_panel :
    (∃ ps shapes, panelAttributes.mapM (property .tsx "\x60Meta\x60") = .ok ps ∧
      renderObject ps = "\x7b\n  title: 't',\n  'row-type': \x7b\n    id: row.id, // key\n".toList ++
        "    cell: <Cell of=\x7brow\x7d />,\n    ...rest /* all */\n".toList ++
        "  \x7d,\n  flag: true,\n  ...args,\n\x7d".toList ∧
      List.Forall₂ (MemberOf Fragment.parse .tsx) panelAttributes shapes ∧
        ReadBack Module.parse? Dialect.tsx.features ps shapes) ∧
    (∃ ps render shapes, storyProperties .tsx panelStory = .ok (ps, []) ∧
      RenderOf Fragment.parse .tsx panelStory (some render) ∧
      List.Forall₂ (MemberOf Fragment.parse .tsx) panelAttributes shapes ∧
        ReadBack Module.parse? Dialect.tsx.features ps (renderMember render :: nameMember panelStory :: shapes)) := by
  obtain ⟨hmetadata, hstories⟩ := attributes_read_back readsCore_parse? .tsx Dialect.tsx.features id
  constructor
  · obtain ⟨shapes, hmembers, hread⟩ := hmetadata _ _ _
      (panelAttributes_accepted "\x60Meta\x60") panelAttributes_movable
    exact ⟨_, shapes, panelAttributes_accepted _, by decide +kernel, hmembers, hread⟩
  · have hrender : renderStory .tsx panelStory = .ok (some (dedent ("() => (".toList ++ rowObject ++ [')'])), []) :=
      renderStory_rowObject rfl
    have hproperties : storyProperties .tsx panelStory = .ok
        (("render: ".toList ++ dedent ("() => (".toList ++ rowObject ++ [')'])) ::
          ("name: ".toList ++ Naming.quoted "primary".toList) :: panelProperties, []) :=
      storyProperties_some hrender panelAttributes_accepted
    have hmovable : MovableStory .tsx panelStory := by
      refine ⟨panelAttributes_movable, ?_⟩
      rintro source ⟨⟩
      exact movableBody_rowObject
    obtain ⟨render, shapes, hrender, hmembers, hread⟩ := hstories _ _ _ hproperties hmovable
    obtain ⟨value, rfl⟩ : ∃ value, render = some value := by
      cases hrender with
      | absent hbody => cases hbody
      | expression | element => exact ⟨_, rfl⟩
    exact ⟨_, value, shapes, hproperties, hrender, hmembers, hread⟩

/-- Two expressions with a comma between them. -/
def commaAttributes : List Attribute :=
  [.property ['a'] (some (.expression "x, y".toList))]

/-- They are accepted as one expression, and become two members. -/
theorem comma_splits_member :
    ∃ ps, commaAttributes.mapM (property .tsx "\x60Meta\x60") = .ok ps ∧
      ¬ ∃ shapes, List.Forall₂ (MemberOf Fragment.parse .tsx) commaAttributes shapes ∧
        ReadBack Module.parse? Dialect.tsx.features ps shapes := by
  have haccepted : ((Module.parse? Dialect.tsx.features (Fragment.wrap "x, y".toList)).bind
      Fragment.expressionOf?).isSome = true := by decide +kernel
  obtain ⟨tree, htree⟩ := Option.isSome_iff_exists.mp haccepted
  have hparse := fun context => @Fragment.parse_eq_ok "x, y".toList .tsx context tree (by decide) htree
  have hps : commaAttributes.mapM (property .tsx "\x60Meta\x60") = .ok ["a: x, y".toList] :=
    mapM_eq_ok_iff.mpr (.cons (propertyWith_expression hparse _ _) .nil)
  refine ⟨_, hps, ?_⟩
  rintro ⟨shapes, hmembers, tree, comma, htree, hshape⟩
  have hcount : ((Module.parse? Dialect.tsx.features (defaultExport ["a: x, y".toList]).text).map
      fun items => items.map fun t => t.parts.map fun e => e.parts.length) = some [[2]] := by
    decide +kernel
  rw [htree] at hcount
  have hparts : tree.shape.parts.map (fun s => s.parts.length) = [2] := by
    simpa [parts_shape] using hcount
  have hone : shapes.length = 1 := hmembers.length_eq.symm
  rw [hshape] at hparts
  simp [Shape.parts, hone] at hparts

end Synthesis
end StoryDocs
