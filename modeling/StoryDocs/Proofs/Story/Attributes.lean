import StoryDocs.Proofs.Script.Core.Tags
import StoryDocs.Proofs.Story.Members

/-!
# Attributes as members

An expression is accepted between brackets, and in a property it stands in front of a comma.  If the expressions of
attributes and of a body stand there, the properties of the metadata and of a story are read one by one.
-/

namespace StoryDocs
namespace Synthesis

open Text Markup Script Grammar

variable {dialect : Dialect} {features : Features} {source text : List Char} {shape : Shape}
  {ps : List (List Char)} {shapes : List Shape} {s : Story}

/-! ## Values of one token -/

theorem isWord_true : IsWord "true".toList :=
  ⟨'t', "rue".toList, rfl, by decide, by decide⟩

theorem core_true {tags : Bool} : Core tags .value "true".toList [.node .boolean "true" []] :=
  (Core.literal isWord_true (by decide)).alone

theorem core_quoted {tags : Bool} (v : List Char) :
    Core tags .value (Naming.quoted v) [.node .string (String.ofList v) []] := by
  rw [quoted_eq_written]
  exact (Core.string (.inr rfl) v).alone

/-! ## Expressions in their places -/

/-- An expression that stands in its property with the tree it was accepted with. -/
def ExpressionStands (dialect : Dialect) (features : Features) (source : List Char) : Prop :=
  ∀ context f, Fragment.parse source dialect context = .ok f →
    Stands features (hanging (dedent f.source)) f.tree.shape

/-- An attribute that stands: its name can be a key, and its expression stands. -/
def AttributeStands (dialect : Dialect) (features : Features) : Attribute → Prop
  | .property name (some (.expression source)) =>
    WordKey name ∧ ExpressionStands dialect features source
  | .property name _ => WordKey name
  | .spread source => ExpressionStands dialect features source

theorem quoted_ne_nil (value : List Char) : Naming.quoted value ≠ [] := by
  simp [Naming.quoted]

/-- A member with a key and a value that stands on one line. -/
theorem member_keyed_line {name t : List Char} (hname : WordKey name) (hfeed : '\n' ∉ t) (hne : t ≠ [])
    (hvalue : ReadsValue t shape) (hplain : shape.hasLooseDefault = false) :
    MemberReads features (keyed name t) (.node .property "" [keyShape name, shape]) ∧
      IsProperty (keyed name t) := by
  have hlines := lines_of_not_mem hfeed hne
  have htext : keyed name t = Naming.propertyKey name ++ [':', ' '] ++ t := by simp [keyed]
  rw [htext]
  refine ⟨memberReads_keyed hname hlines hne ?_, _, t, t, [], .key hname, rfl, hlines, hne⟩
  rw [hanging_of_not_mem hfeed hne]
  exact stands_of_readsValue hvalue hplain

/-- A member with a key and an expression that stands. -/
theorem member_keyed_solid {name text : List Char} (hname : WordKey name) (hsolid : Solid text)
    (hvalue : Stands features (hanging (dedent text)) shape) :
    MemberReads features (keyed name (dedent text)) (.node .property "" [keyShape name, shape]) ∧
      IsProperty (keyed name (dedent text)) := by
  obtain ⟨l, ls, hlines, hl⟩ := hsolid.exists_lines_dedent
  have htext : keyed name (dedent text) = Naming.propertyKey name ++ [':', ' '] ++ dedent text := by
    simp [keyed]
  rw [htext]
  exact ⟨memberReads_keyed hname hlines hl hvalue, _, _, l, ls, .key hname, rfl, hlines, hl⟩

theorem solid_source_of_parse {context : String} {f : Fragment}
    (h : Fragment.parse source dialect context = .ok f) : Solid f.source := by
  obtain ⟨hsource, hne⟩ := Fragment.source_of_parse h
  rw [hsource]
  exact solid_trim hne

/-- The property of an attribute that stands is read as one member. -/
theorem exists_member {owner : String} {a : Attribute} {p : List Char}
    (h : property dialect owner a = .ok p) (hstands : AttributeStands dialect features a) :
    ∃ shape, MemberReads features p shape ∧ IsProperty p := by
  cases a with
  | property name value =>
      rcases value with _ | ⟨text⟩ | ⟨source⟩
      · cases h
        exact ⟨.node .property "" [keyShape name, .node .boolean "true" []], member_keyed_line hstands (by decide)
          (by decide) core_true.readsValue rfl⟩
      · cases h
        exact ⟨_, member_keyed_line hstands (feed_not_mem_quoted text)
          (quoted_ne_nil text) (core_quoted text).readsValue rfl⟩
      · obtain ⟨hname, hexpression⟩ := hstands
        obtain ⟨f, hf, rfl⟩ := map_eq_ok_iff.mp h
        exact ⟨_, member_keyed_solid hname (solid_source_of_parse hf) (hexpression _ f hf)⟩
  | spread source =>
      obtain ⟨f, hf, rfl⟩ := map_eq_ok_iff.mp h
      obtain ⟨l, ls, hlines, hl⟩ := (solid_source_of_parse hf).exists_lines_dedent
      exact ⟨_, memberReads_spread hlines hl (hstands _ f hf), _, _, l, ls, .dots, rfl, hlines, hl⟩

theorem exists_members {owner : String} {attributes : List Attribute}
    (h : attributes.mapM (property dialect owner) = .ok ps)
    (hstands : ∀ a ∈ attributes, AttributeStands dialect features a) :
    ∃ shapes, List.Forall₂ (MemberReads features) ps shapes ∧ ∀ p ∈ ps, IsProperty p := by
  have hall := mapM_eq_ok_iff.mp h
  clear h
  induction hall with
  | nil => exact ⟨[], .nil, by simp⟩
  | cons hp _ ih =>
      rw [List.forall_mem_cons] at hstands
      obtain ⟨shape, hreads, hproperty⟩ := exists_member hp hstands.1
      obtain ⟨shapes, hread, hproperties⟩ := ih hstands.2
      refine ⟨shape :: shapes, .cons hreads hread, ?_⟩
      rw [List.forall_mem_cons]
      exact ⟨hproperty, hproperties⟩

/-! ## Stories -/

/-- A story whose attributes and render function stand. -/
structure StoryStands (dialect : Dialect) (features : Features) (s : Story) : Prop where
  attributes : ∀ a ∈ s.attributes, AttributeStands dialect features a
  render : ∀ render remarks, renderStory dialect s = .ok (some render, remarks) →
    ∃ shape, Stands features (hanging render) shape

theorem wordKey_render : WordKey "render".toList :=
  fun _ => ⟨'r', "ender".toList, rfl, by decide, by decide⟩

theorem wordKey_name : WordKey "name".toList :=
  fun _ => ⟨'n', "ame".toList, rfl, by decide, by decide⟩

theorem keyed_render (t : List Char) : "render: ".toList ++ t = keyed "render".toList t := by
  have hkey : Naming.propertyKey "render".toList = "render".toList := by decide
  rw [keyed, hkey]
  rfl

theorem keyed_name (t : List Char) : "name: ".toList ++ t = keyed "name".toList t := by
  have hkey : Naming.propertyKey "name".toList = "name".toList := by decide
  rw [keyed, hkey]
  rfl

theorem Rendered.exists_body {parse : ExpressionReader} {render : List Char}
    (h : Rendered parse dialect s (some render)) : ∃ source, bodyExpression? dialect s = some source := by
  cases h with
  | expression hchildren _ => exact ⟨_, by rw [bodyExpression?, hchildren]⟩
  | element hchildren htags _ =>
      rw [bodyExpression?, hchildren]
      exact ⟨_, if_pos htags⟩

/-- The properties of a story that stands are read one by one. -/
theorem exists_story_members {remarks : List Diagnostic}
    (h : storyProperties dialect s = .ok (ps, remarks)) (hstands : StoryStands dialect features s) :
    ∃ shapes, List.Forall₂ (MemberReads features) ps shapes ∧ ∀ p ∈ ps, IsProperty p := by
  obtain ⟨⟨render, _⟩, hrender, h⟩ := bind_eq_ok_iff.mp h
  obtain ⟨attributes, hattributes, h⟩ := bind_eq_ok_iff.mp h
  cases h
  obtain ⟨shapes, hreads, hproperties⟩ := exists_members hattributes hstands.attributes
  obtain ⟨hname, hnameProperty⟩ := @member_keyed_line features _ _ _ wordKey_name
    (feed_not_mem_quoted s.name) (quoted_ne_nil s.name) (core_quoted s.name).readsValue rfl
  rw [← keyed_name] at hname hnameProperty
  cases render with
  | none =>
      refine ⟨_, .cons hname hreads, ?_⟩
      simp only [Option.toList_none, List.map_nil, List.nil_append, List.forall_mem_cons]
      exact ⟨hnameProperty, hproperties⟩
  | some render =>
      obtain ⟨shape, hvalue⟩ := hstands.render render _ hrender
      have hrendered := rendered_of_renderStory hrender
      obtain ⟨source, hbody⟩ := hrendered.exists_body
      obtain ⟨e, _, htext⟩ := hrendered.exists_embedding hbody
      cases htext
      obtain ⟨hfirst, hfirstProperty⟩ := member_keyed_solid wordKey_render e.solid_text hvalue
      rw [← keyed_render] at hfirst hfirstProperty
      refine ⟨_, .cons hfirst (.cons hname hreads), ?_⟩
      simp only [Option.toList_some, List.map_cons, List.map_nil, List.cons_append, List.nil_append,
        List.forall_mem_cons]
      exact ⟨hfirstProperty, hnameProperty, hproperties⟩

end Synthesis
end StoryDocs
