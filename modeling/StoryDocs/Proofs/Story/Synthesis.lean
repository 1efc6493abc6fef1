import Mathlib.Data.List.Forall2
import StoryDocs.Proofs.Outcome
import StoryDocs.Proofs.Story.Extraction
import StoryDocs.Story.Synthesis

/-!
# The statements of a story module

Synthesis keeps the statements it is given and adds a default export and one named export for each story,
in the order of the stories.
-/

namespace StoryDocs

open Text Markup Script

/-! ## Exports -/

/-- A default export of an object literal. -/
def Script.Statement.ExportsDefault (s : Statement) : Prop :=
  s.kind = .defaultExport ∧
    ∃ body, s.text = "export default \x7b".toList ++ body ++ "\x7d;".toList

/-- An export of an object literal under the name of a story. -/
def Script.Statement.ExportsStory (key : List Char) (s : Statement) : Prop :=
  s.kind = .namedExport ∧
    ∃ body, s.text = "export const ".toList ++ key ++ " = \x7b".toList ++ body ++ "\x7d;".toList

namespace Synthesis

/-- An object literal is written in braces. -/
theorem exists_renderObject (properties : List (List Char)) :
    ∃ body, renderObject properties = '\x7b' :: body ++ ['\x7d'] := by
  unfold renderObject
  split
  · exact ⟨[], rfl⟩
  · exact ⟨'\n' :: properties.flatMap fun p => indentProperty p ++ [',', '\n'], rfl⟩

theorem defaultExport_exportsDefault (properties : List (List Char)) :
    (defaultExport properties).ExportsDefault := by
  obtain ⟨body, hbody⟩ := exists_renderObject properties
  exact ⟨rfl, body, by simp [defaultExport, hbody]⟩

theorem storyExport_exportsStory (key : List Char) (properties : List (List Char)) :
    (storyExport key properties).ExportsStory key := by
  obtain ⟨body, hbody⟩ := exists_renderObject properties
  exact ⟨rfl, body, by simp [storyExport, hbody]⟩

theorem metadataExport_exportsDefault {dialect : Dialect} {metadata : Option (List Attribute)}
    {s : Statement} {remarks : List Diagnostic}
    (h : metadataExport dialect metadata = .ok (s, remarks)) : s.ExportsDefault := by
  cases metadata with
  | none =>
      cases h
      exact defaultExport_exportsDefault []
  | some attributes =>
      obtain ⟨properties, _, hs⟩ := map_eq_ok_iff.mp h
      cases hs
      exact defaultExport_exportsDefault properties

/-- Each story gets an export under its name, in order. -/
theorem storyExports_forall₂ {dialect : Dialect} {stories : List (List Char × Story)}
    {exports : List Statement} {remarks : List Diagnostic}
    (h : storyExports dialect stories = .ok (exports, remarks)) :
    List.Forall₂ Statement.ExportsStory (stories.map Prod.fst) exports := by
  induction stories generalizing exports remarks with
  | nil =>
      cases h
      exact .nil
  | cons entry rest ih =>
      obtain ⟨key, s⟩ := entry
      obtain ⟨⟨properties, _⟩, _, h⟩ := bind_eq_ok_iff.mp h
      obtain ⟨⟨statements, _⟩, hrest, h⟩ := bind_eq_ok_iff.mp h
      cases h
      exact .cons (storyExport_exportsStory key properties) (ih hrest)

end Synthesis

/-- The statements of a story module: those given, one default export, and one export for each story. -/
theorem synthesize_statements {dialect : Dialect} {preamble program : Program} {x : Extraction}
    {remarks : List Diagnostic} (h : synthesize dialect preamble x = .ok (program, remarks)) :
    ∃ default exports, program.statements = preamble.statements ++ default :: exports ∧
      default.ExportsDefault ∧ List.Forall₂ Statement.ExportsStory x.keys exports := by
  obtain ⟨⟨default, _⟩, hdefault, h⟩ := bind_eq_ok_iff.mp h
  obtain ⟨⟨exports, _⟩, hexports, h⟩ := bind_eq_ok_iff.mp h
  cases h
  exact ⟨default, exports, rfl, Synthesis.metadataExport_exportsDefault hdefault,
    Synthesis.storyExports_forall₂ hexports⟩

end StoryDocs
