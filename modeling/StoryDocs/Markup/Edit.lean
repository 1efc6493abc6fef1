import StoryDocs.Markup.Node

/-!
# Editing documents

An edit is led to its place by a path of child indexes.  Editing the children of an element keeps its
tags; replacing its attributes or clearing its children has the tags written anew.
-/

namespace StoryDocs
namespace Markup

/-- Edit one node of a list; `none` if there is none at the index or the edit fails. -/
def editNth {α : Type} (edit : Node → Option (α × Node)) : Nat → List Node → Option (α × List Node)
  | _, [] => none
  | 0, n :: ns => (edit n).map fun (a, n) => (a, n :: ns)
  | i + 1, n :: ns => (editNth edit i ns).map fun (a, ns) => (a, n :: ns)

/-- Edit the child list that a path leads to; the empty path leads to the list itself. -/
def editChildren {α : Type} (edit : List Node → Option (α × List Node)) :
    List Nat → List Node → Option (α × List Node)
  | [], ns => edit ns
  | i :: path, ns =>
    editNth
      (fun n =>
        match n with
        | .element tag children =>
          (editChildren edit path children).map fun (a, cs) => (a, .element tag cs)
        | _ => none)
      i ns

/-- Edit the element that a path leads to. -/
def editElement {α : Type} (edit : Tag → List Node → α × Tag × List Node) :
    List Nat → List Node → Option (α × List Node)
  | [], _ => none
  | path, ns =>
    editChildren
      (editNth
        (fun n =>
          match n with
          | .element tag children =>
            let (a, t, cs) := edit tag children
            some (a, .element t cs)
          | _ => none)
        (path.getLastD 0))
      path.dropLast ns

/-- Replace the attributes of an element and give the old ones. -/
def setAttributes (attributes : List Attribute) (tag : Tag) (children : List Node) :
    List Attribute × Tag × List Node :=
  (tag.attributes, tag.withAttributes attributes, children)

/-- Take the children off an element, which closes itself then. -/
def clearChildren (tag : Tag) (children : List Node) : List Node × Tag × List Node :=
  (children, tag.unsourced, [])

/-- Take the children off an element and keep its tags. -/
def takeChildren (tag : Tag) (children : List Node) : List Node × Tag × List Node :=
  (children, tag, [])

/-- Look at an element without a change. -/
def inspect (tag : Tag) (children : List Node) : (Tag × List Node) × Tag × List Node :=
  ((tag, children), tag, children)

/-- Insert a node; an index behind the end means the end. -/
def insertNode (index : Nat) (node : Node) (ns : List Node) : List Node :=
  ns.take index ++ node :: ns.drop index

/-- Remove a node and give it. -/
def removeNode (index : Nat) (ns : List Node) : Option (Node × List Node) :=
  match ns.drop index with
  | [] => none
  | n :: rest => some (n, ns.take index ++ rest)

/-- Replace the text of the script block with an index and give the old one. -/
def setScript (value : List Char) : Nat → List Node → Option (List Char × List Node)
  | _, [] => none
  | 0, .script old :: ns => some (old, .script value :: ns)
  | i + 1, .script old :: ns => (setScript value i ns).map fun (a, ns) => (a, .script old :: ns)
  | i, n :: ns => (setScript value i ns).map fun (a, ns) => (a, n :: ns)

end Markup
end StoryDocs
