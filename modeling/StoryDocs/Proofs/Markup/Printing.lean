import StoryDocs.Markup.Printer

/-!
# Printing what was read

Printing is compositional, and a node whose elements all keep their tags as written prints as the texts it
captured: prose, script blocks, expressions in their braces, opening tags and closing tags.
-/

namespace StoryDocs
namespace Markup
namespace Node

/-! ## Lists of nodes -/

@[simp] theorem printAll_nil : printAll [] = [] := by
  rw [printAll]

@[simp] theorem printAll_cons (n : Node) (ns : List Node) :
    printAll (n :: ns) = n.print ++ printAll ns := by
  rw [printAll]

@[simp] theorem printAll_append (ns ms : List Node) :
    printAll (ns ++ ms) = printAll ns ++ printAll ms := by
  induction ns with
  | nil => simp
  | cons n ns ih => simp [ih]

/-! ## Nodes as written -/

/-- Nodes that print as they were read: all their elements keep their tags, and those that close
themselves have no children. -/
inductive Pristine : Node → Prop
  | text (value : List Char) : Pristine (.text value)
  | script (value : List Char) : Pristine (.script value)
  | expression (value : List Char) (flow : Bool) : Pristine (.expression value flow)
  | childless {tag : Tag} {opening : List Char} (hsource : tag.source = some ⟨opening, none⟩) :
      Pristine (.element tag [])
  | enclosing {tag : Tag} {opening closing : List Char} {children : List Node}
      (hsource : tag.source = some ⟨opening, some closing⟩)
      (hchildren : ∀ n ∈ children, Pristine n) : Pristine (.element tag children)

theorem Pristine.children {tag : Tag} {children : List Node}
    (h : (Node.element tag children).Pristine) : ∀ n ∈ children, n.Pristine := by
  cases h with
  | childless _ => simp
  | enclosing _ hchildren => exact hchildren

mutual

/-- The texts that a node captured, in order. -/
def captures : Node → List (List Char)
  | .text value => [value]
  | .script value => [value]
  | .expression value _ => ['\x7b' :: value ++ ['\x7d']]
  | .element tag children =>
    (tag.source.map TagSource.opening).toList ++ capturesAll children ++
      (tag.source.bind TagSource.closing).toList

/-- The texts that nodes captured, in order. -/
def capturesAll : List Node → List (List Char)
  | [] => []
  | n :: ns => n.captures ++ capturesAll ns

end

theorem flatten_capturesAll {ns : List Node} (h : ∀ n ∈ ns, n.captures.flatten = n.print) :
    (capturesAll ns).flatten = printAll ns := by
  induction ns with
  | nil => simp [capturesAll]
  | cons n ns ih =>
      rw [capturesAll, List.flatten_append, printAll_cons, h n (by simp),
        ih fun m hm => h m (by simp [hm])]

/-- A pristine node prints as what it captured. -/
theorem Pristine.flatten_captures {n : Node} (h : n.Pristine) : n.captures.flatten = n.print := by
  induction h with
  | text value => simp [captures, print]
  | script value => simp [captures, print]
  | expression value flow => simp [captures, print]
  | childless hsource => simp [captures, capturesAll, print, Tag.print, hsource]
  | enclosing hsource _ ih =>
      have hinner := flatten_capturesAll ih
      simp [captures, print, Tag.print, hsource, hinner]

end Node

/-- The texts that a document captured, in order. -/
def Document.captures (d : Document) : List (List Char) :=
  Node.capturesAll d.children

end Markup
end StoryDocs
