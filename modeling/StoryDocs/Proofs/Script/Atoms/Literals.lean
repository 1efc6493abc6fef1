import StoryDocs.Layout.Literal
import StoryDocs.Proofs.Script.Atoms.Basic
import StoryDocs.Script.Grammar.Target

/-!
# Literals of trees

The strings and templates of a tree as a multiset, so that the parts of a rule add up to what it builds.
-/

namespace StoryDocs
namespace Script

/-- The literals of a tree. -/
def Tree.literals (t : Tree) : Multiset Literal :=
  ↑(t.strings.map Literal.string) + ↑(t.templates.map Literal.template)

/-- The literals of several trees. -/
def Tree.literalsOf (ts : List Tree) : Multiset Literal :=
  ↑((Tree.stringsOf ts).map Literal.string) + ↑((Tree.templatesOf ts).map Literal.template)

/-- Whether nodes of a kind are literals. -/
def Kind.isLiteral (k : Kind) : Bool :=
  k == .string || k == .template || k == .typeTemplate

namespace Tree

variable {k : Kind} {sp : Span} {name : String} {t : Tree} {ts us : List Tree}

@[simp] theorem literalsOf_nil : literalsOf [] = 0 := rfl

@[simp] theorem literalsOf_cons (t : Tree) (ts : List Tree) :
    literalsOf (t :: ts) = t.literals + literalsOf ts := by
  simp only [literalsOf, literals, stringsOf, templatesOf, List.map_append, ← Multiset.coe_add]
  exact add_add_add_comm _ _ _ _

@[simp] theorem literalsOf_append (ts us : List Tree) :
    literalsOf (ts ++ us) = literalsOf ts + literalsOf us := by
  induction ts with
  | nil => simp
  | cons t ts ih => rw [List.cons_append, literalsOf_cons, ih, literalsOf_cons, add_assoc]

@[simp] theorem literalsOf_reverse (ts : List Tree) : literalsOf ts.reverse = literalsOf ts := by
  induction ts with
  | nil => rfl
  | cons t ts ih =>
      rw [List.reverse_cons, literalsOf_append, ih, literalsOf_cons, literalsOf_cons, literalsOf_nil,
        add_zero, add_comm]

theorem literals_node (h : k.isLiteral = false) (sp : Span) (name : String) (ts : List Tree) :
    (node k sp name ts).literals = literalsOf ts := by
  simp only [Kind.isLiteral, Bool.or_eq_false_iff, beq_eq_false_iff_ne] at h
  obtain ⟨⟨hstring, htemplate⟩, htype⟩ := h
  have hstrings : (node k sp name ts).strings = stringsOf ts := by
    rw [strings.eq_def]
    split
    · exact absurd (Tree.node.inj ‹_›).1 hstring
    · obtain ⟨_, _, _, rfl⟩ := Tree.node.inj ‹_›
      rfl
  rw [literals, literalsOf, hstrings, templates, if_neg]
  rw [Bool.or_eq_true, beq_iff_eq, beq_iff_eq]
  exact not_or.mpr ⟨htemplate, htype⟩

theorem literals_string (sp : Span) (name : String) :
    (node .string sp name []).literals = {.string sp} := rfl

theorem literals_template (h : k = .template ∨ k = .typeTemplate) (sp : Span) (name : String)
    (ts : List Tree) : (node k sp name ts).literals = {.template sp} + literalsOf ts := by
  have hkind : (k == .template || k == .typeTemplate) = true := by
    rcases h with rfl | rfl
    · rfl
    · rfl
  have hstrings : (node k sp name ts).strings = stringsOf ts := by
    rcases h with rfl | rfl
    · rfl
    · rfl
  rw [literals, literalsOf, hstrings, templates, if_pos hkind, List.map_cons, ← Multiset.cons_coe,
    ← Multiset.singleton_add]
  exact add_left_comm _ _ _

theorem stringsOf_append (ts us : List Tree) : stringsOf (ts ++ us) = stringsOf ts ++ stringsOf us := by
  induction ts with
  | nil => rfl
  | cons t ts ih => rw [List.cons_append, stringsOf, stringsOf, ih, List.append_assoc]

theorem templatesOf_append (ts us : List Tree) :
    templatesOf (ts ++ us) = templatesOf ts ++ templatesOf us := by
  induction ts with
  | nil => rfl
  | cons t ts ih => rw [List.cons_append, templatesOf, templatesOf, ih, List.append_assoc]

/-- Parts that are added to a node bring no more than their literals with them. -/
theorem literals_node_append_le (t : Tree) (us : List Tree) :
    (node t.kind t.span t.name (t.parts ++ us)).literals ≤ t.literals + literalsOf us := by
  obtain ⟨k, sp, name, ts⟩ := t
  have htemplates : (node k sp name (ts ++ us)).templates = (node k sp name ts).templates ++ templatesOf us := by
    rw [templates, templates, templatesOf_append]
    split
    · rfl
    · rfl
  have hstrings : ((node k sp name (ts ++ us)).strings : Multiset Span) ≤
      ((node k sp name ts).strings ++ stringsOf us : List Span) := by
    by_cases hk : k = .string
    · subst hk
      exact (List.sublist_append_left _ _).subperm
    · have hother : ∀ ts, (node k sp name ts).strings = stringsOf ts := by
        intro ts
        rw [strings.eq_def]
        split
        · exact absurd (Tree.node.inj ‹_›).1 hk
        · obtain ⟨_, _, _, rfl⟩ := Tree.node.inj ‹_›
          rfl
      rw [hother, hother, stringsOf_append]
  have hmapped := Multiset.map_le_map (f := Literal.string) hstrings
  rw [Multiset.map_coe, Multiset.map_coe, List.map_append, ← Multiset.coe_add] at hmapped
  simp only [kind, span, Tree.name, parts, literals, literalsOf, htemplates, List.map_append,
    ← Multiset.coe_add]
  rw [add_add_add_comm]
  exact add_le_add_left hmapped _

/-! ## Patterns -/

mutual

/-- A literal that becomes a pattern keeps its literals. -/
theorem literals_asPattern (t : Tree) : t.asPattern.literals = t.literals := by
  rw [asPattern.eq_def]
  split
  · rw [literals_node rfl, literals_node rfl, literalsOf_asPatterns]
  · rw [literals_node rfl, literals_node rfl, literalsOf_asPatterns]
  · rw [literals_node rfl, literals_node rfl, literalsOf_asPatterns]
  · rw [literals_node rfl, literals_node rfl]
  · rw [literals_node rfl, literals_node rfl]
  · rw [literals_node rfl, literals_node rfl, literalsOf_asPatterns]
  · rw [literals_node rfl, literals_node rfl]
  · rfl

theorem literalsOf_asPatterns : (ts : List Tree) → literalsOf (asPatterns ts) = literalsOf ts
  | [] => rfl
  | t :: ts => by
    rw [asPatterns, literalsOf_cons, literalsOf_cons, literals_asPattern t, literalsOf_asPatterns ts]

end

end Tree

end Script
end StoryDocs
