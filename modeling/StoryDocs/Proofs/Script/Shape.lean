import StoryDocs.Script.Grammar.Target

/-!
# Shapes

What can be told of a tree from its shape alone.
-/

namespace StoryDocs
namespace Script

/-- The kind of a node. -/
def Shape.kind : Shape → Kind
  | node k _ _ => k

theorem kind_shape (t : Tree) : t.shape.kind = t.kind := by
  cases t with
  | node k span name parts => rfl

/-- The parts of a node. -/
def Shape.parts : Shape → List Shape
  | node _ _ ps => ps

theorem shapes_eq_map (ts : List Tree) : Tree.shapes ts = ts.map Tree.shape := by
  induction ts with
  | nil => rfl
  | cons t ts ih => rw [Tree.shapes, ih, List.map_cons]

theorem parts_shape (t : Tree) : t.shape.parts = t.parts.map Tree.shape := by
  cases t with
  | node k span name parts => exact shapes_eq_map parts

mutual

/-- Whether a default stands in an object literal that did not become a pattern. -/
def Shape.hasLooseDefault : Shape → Bool
  | .node .shorthandDefault _ _ => true
  | .node .function _ _ => false
  | .node .arrow _ _ => false
  | .node _ _ ps => Shape.haveLooseDefault ps

/-- Whether a default stands loose in one of the nodes. -/
def Shape.haveLooseDefault : List Shape → Bool
  | [] => false
  | s :: ss => s.hasLooseDefault || Shape.haveLooseDefault ss

end

mutual

theorem hasLooseDefault_shape (t : Tree) : t.shape.hasLooseDefault = t.hasLooseDefault := by
  cases t with
  | node k span name parts =>
      have hparts := haveLooseDefault_shapes parts
      cases k <;> simp only [Tree.shape, Shape.hasLooseDefault, Tree.hasLooseDefault, hparts]

theorem haveLooseDefault_shapes (ts : List Tree) :
    Shape.haveLooseDefault (Tree.shapes ts) = Tree.haveLooseDefault ts := by
  cases ts with
  | nil => rfl
  | cons t ts =>
      rw [Tree.shapes, Shape.haveLooseDefault, Tree.haveLooseDefault, hasLooseDefault_shape t,
        haveLooseDefault_shapes ts]

end

/-! ## Bound names -/

/-- The name of a node. -/
def Shape.name : Shape → String
  | node _ n _ => n

mutual

/-- The names that a pattern binds. -/
def Shape.patternNames : Shape → List String
  | .node .identifier name _ => [name]
  | .node .name name _ => [name]
  | .node .objectPattern _ ps => Shape.namesOfAll ps
  | .node .arrayPattern _ ps => Shape.namesOfAll ps
  | .node .rest _ ps => Shape.namesOfAll ps
  | .node .withDefault _ ps => Shape.namesOfFirst ps
  | .node .patternProperty _ ps => Shape.namesOfLast ps
  | _ => []

/-- The names that patterns bind. -/
def Shape.namesOfAll : List Shape → List String
  | [] => []
  | s :: ss => s.patternNames ++ Shape.namesOfAll ss

/-- The names that the first of some patterns binds. -/
def Shape.namesOfFirst : List Shape → List String
  | [] => []
  | s :: _ => s.patternNames

/-- The names that the last of some patterns binds. -/
def Shape.namesOfLast : List Shape → List String
  | [] => []
  | [s] => s.patternNames
  | _ :: ss => Shape.namesOfLast ss

end

/-- The names that a part of an import binds: its own, or the last of those between braces. -/
def Shape.importedNames : Shape → List String
  | .node .identifier name _ => [name]
  | .node .importSpecifier _ ps => (ps.getLast?.map Shape.name).toList
  | _ => []

/-- The names that a variable binds. -/
def Shape.variableNames (s : Shape) : List String :=
  Shape.namesOfFirst s.parts

/-- The names that a module item binds at the top level. -/
def Shape.boundNames : Shape → List String
  | .node .importDecl _ ps => ps.flatMap Shape.importedNames
  | .node .importEquals name _ => [name]
  | .node .variableList _ ps => ps.flatMap Shape.variableNames
  | .node .functionDecl name _ => [name]
  | .node .classDecl name _ => [name]
  | .node .enumDecl name _ => [name]
  | .node .interfaceDecl name _ => [name]
  | .node .typeAliasDecl name _ => [name]
  | .node .moduleDecl _ (.node .name name _ :: _) => [name]
  | .node .exportDecl _ (s :: _) => s.boundNames
  | .node .exportDefaultDecl _ (s :: _) => if s.name = "" then [] else s.boundNames
  | _ => []

/-- What demotion leaves of a module item: a declaration without its export, or nothing of an export that
declares no name. -/
def Shape.kept? : Shape → Option Shape
  | .node .exportDecl _ (s :: _) => some s
  | .node .exportDefaultDecl _ (s :: _) => if s.name = "" then none else some s
  | .node .exportDefaultExpr _ _ => none
  | .node .exportNamed _ _ => none
  | .node .exportAll _ _ => none
  | .node .exportAssign _ _ => none
  | .node .exportNamespace _ _ => none
  | s => some s

/-- Demotion keeps the names that are bound. -/
theorem boundNames_kept? (s : Shape) : s.kept?.toList.flatMap Shape.boundNames = s.boundNames := by
  unfold Shape.kept?
  split
  · simp [Shape.boundNames]
  · split
    · rename_i hname
      simp [Shape.boundNames, hname]
    · rename_i hname
      simp [Shape.boundNames, hname]
  all_goals simp [Shape.boundNames]

theorem flatMap_boundNames_kept? (ss : List Shape) :
    (ss.filterMap Shape.kept?).flatMap Shape.boundNames = ss.flatMap Shape.boundNames := by
  induction ss with
  | nil => rfl
  | cons s ss ih =>
      have hs := boundNames_kept? s
      rw [List.filterMap_cons, List.flatMap_cons, ← ih, ← hs]
      cases s.kept? with
      | none => rfl
      | some t => simp

end Script
end StoryDocs
