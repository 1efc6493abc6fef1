import Mathlib.Logic.Relation
import StoryDocs.Markup.Edit
import StoryDocs.Markup.Parser
import StoryDocs.Proofs.Markup.Printing

/-!
# What stands around an element

`Surroundings` is a list of nodes with a gap, somewhere in it at any depth.  Whatever fills the gap is printed between
the same two texts, which are made of the nodes outside it and of the tags of the elements around it.  So an edit at or
below an element changes nothing that is printed in front of the element or behind it.
-/

namespace StoryDocs
namespace Markup

/-! ## Tags around children -/

/-- The tags of an element that has children: as they were written, or new ones. -/
def Tag.around (t : Tag) : List Char × List Char :=
  match t.source with
  | some ⟨opening, some closing⟩ => (opening, closing)
  | _ => (t.head ++ ['>'], '<' :: '/' :: t.name ++ ['>'])

/-- In each of its modes an element with children prints as tags around them. -/
theorem Tag.print_around (t : Tag) (inner : List Char) :
    t.print false inner = t.around.1 ++ inner ++ t.around.2 := by
  unfold print around
  cases t.source with
  | none => simp
  | some source =>
      obtain ⟨opening, closing⟩ := source
      cases closing with
      | none => simp
      | some closing => rfl

/-- What stands around one node of a list. -/
inductive Surroundings where
  /-- The node is one of the list. -/
  | here (before behind : List Node)
  /-- The node stands among the children of an element of the list, or further inside. -/
  | inside (before : List Node) (tag : Tag) (inner : Surroundings) (behind : List Node)

namespace Surroundings

/-- The list with a node in its gap. -/
def fill : Surroundings → Node → List Node
  | here before behind, n => before ++ n :: behind
  | inside before tag inner behind, n => before ++ .element tag (inner.fill n) :: behind

/-- The child indexes that lead to the gap. -/
def path : Surroundings → List Nat
  | here before _ => [before.length]
  | inside before _ inner _ => before.length :: inner.path

/-- What is printed in front of the gap: the nodes there and the opening tags around it. -/
def front : Surroundings → List Char
  | here before _ => Node.printAll before
  | inside before tag inner _ => Node.printAll before ++ (tag.around.1 ++ inner.front)

/-- What is printed behind the gap: the nodes there and the closing tags around it. -/
def back : Surroundings → List Char
  | here _ behind => Node.printAll behind
  | inside _ tag inner behind => inner.back ++ (tag.around.2 ++ Node.printAll behind)

variable {c : Surroundings} {n : Node} {ns : List Node} {tag : Tag} {kids : List Node}

theorem fill_ne_nil (c : Surroundings) (n : Node) : c.fill n ≠ [] := by
  cases c with
  | here before behind => simp [fill]
  | inside before tag inner behind => simp [fill]

/-- Whatever fills the gap is printed between the same texts. -/
theorem print_fill (c : Surroundings) (n : Node) :
    Node.printAll (c.fill n) = c.front ++ n.print ++ c.back := by
  induction c with
  | here before behind => simp [fill, front, back]
  | inside before tag inner behind ih =>
      -- The element around the gap has a child, so it is printed as its two tags.
      have hchild : (inner.fill n).isEmpty = false := List.isEmpty_eq_false_iff.mpr (fill_ne_nil inner n)
      rw [fill, Node.printAll_append, Node.printAll_cons, Node.print, hchild, Tag.print_around, ih]
      simp [front, back]

/-! ## Paths lead to gaps -/

theorem editNth_append {α : Type} (edit : Node → Option (α × Node)) (before behind : List Node) (n : Node) :
    editNth edit before.length (before ++ n :: behind) =
      (edit n).map fun (a, n) => (a, before ++ n :: behind) := by
  induction before with
  | nil => rfl
  | cons m before ih =>
      rw [List.length_cons, List.cons_append, editNth, ih, Option.map_map]
      rfl

theorem exists_of_editNth {α : Type} {edit : Node → Option (α × Node)} {i : Nat} {r : α × List Node}
    (h : editNth edit i ns = some r) :
    ∃ before n behind a m, ns = before ++ n :: behind ∧ before.length = i ∧ edit n = some (a, m) ∧
      r = (a, before ++ m :: behind) := by
  induction ns generalizing i r with
  | nil => simp [editNth] at h
  | cons n ns ih =>
      cases i with
      | zero =>
          obtain ⟨⟨a, m⟩, hedit, rfl⟩ := Option.map_eq_some_iff.mp h
          exact ⟨[], n, ns, a, m, rfl, rfl, hedit, rfl⟩
      | succ i =>
          obtain ⟨⟨a, ms⟩, hrest, rfl⟩ := Option.map_eq_some_iff.mp h
          obtain ⟨before, k, behind, b, m, rfl, rfl, hedit, hr⟩ := ih hrest
          obtain ⟨rfl, rfl⟩ := Prod.mk.inj hr
          exact ⟨n :: before, k, behind, a, m, rfl, rfl, hedit, rfl⟩

/-- Edit the children of an element. -/
def inChildren {α : Type} (edit : List Node → Option (α × List Node)) : Node → Option (α × Node)
  | .element tag children => (edit children).map fun (a, ns) => (a, .element tag ns)
  | _ => none

/-- Edit an element with its children. -/
def atElement {α : Type} (edit : Tag → List Node → α × Tag × List Node) : Node → Option (α × Node)
  | .element tag children =>
    let (a, t, ns) := edit tag children
    some (a, .element t ns)
  | _ => none

/-- Edits that are led to their place by a path: its first indexes lead through elements to their children, and
`last` is what is done with the node that its last index leads to. -/
structure Led {α : Type} (edit : List Nat → List Node → Option (α × List Node)) (last : Node → Option (α × Node)) :
    Prop where
  last : ∀ i ns, edit [i] ns = editNth last i ns
  through : ∀ i path ns, path ≠ [] → edit (i :: path) ns = editNth (inChildren (edit path)) i ns

namespace Led

variable {α : Type} {edit : List Nat → List Node → Option (α × List Node)} {last : Node → Option (α × Node)}

theorem path_ne_nil (c : Surroundings) : c.path ≠ [] := by
  cases c with
  | here before behind => simp [path]
  | inside before tag inner behind => simp [path]

/-- An edit that is led to a gap changes what is in it and leaves the surroundings. -/
theorem edit_fill (h : Led edit last) (c : Surroundings) (n : Node) :
    edit c.path (c.fill n) = (last n).map fun (a, m) => (a, c.fill m) := by
  induction c with
  | here before behind =>
      rw [path, fill, h.last, editNth_append]
      rfl
  | inside before tag inner behind ih =>
      rw [path, fill, h.through _ _ _ (path_ne_nil inner), editNth_append, inChildren, ih, Option.map_map,
        Option.map_map]
      rfl

/-- A path along which an edit succeeds leads to a gap. -/
theorem exists_fill (h : Led edit last) {path : List Nat} {r : α × List Node} (hne : path ≠ [])
    (hedit : edit path ns = some r) :
    ∃ (c : Surroundings) (n : Node), path = c.path ∧ ns = c.fill n ∧ (last n).isSome = true := by
  induction path generalizing ns r with
  | nil => exact absurd rfl hne
  | cons i path ih =>
      by_cases hpath : path = []
      · subst hpath
        rw [h.last] at hedit
        obtain ⟨before, n, behind, a, m, rfl, rfl, hlast, _⟩ := exists_of_editNth hedit
        exact ⟨here before behind, n, rfl, rfl, by rw [hlast]; rfl⟩
      · rw [h.through i path ns hpath] at hedit
        obtain ⟨before, n, behind, a, m, rfl, rfl, hinside, _⟩ := exists_of_editNth hedit
        cases n with
        | text | script | expression => cases hinside
        | element tag children =>
            obtain ⟨r, hrest, _⟩ := Option.map_eq_some_iff.mp hinside
            obtain ⟨c, n, rfl, rfl, hlast⟩ := ih hpath hrest
            exact ⟨inside before tag c behind, n, rfl, rfl, hlast⟩

end Led

theorem led_element {α : Type} (edit : Tag → List Node → α × Tag × List Node) :
    Led (editElement edit) (atElement edit) where
  last _ _ := rfl
  through i path ns hpath := by
    obtain ⟨j, rest, rfl⟩ := List.exists_cons_of_ne_nil hpath
    rfl

/-- Elements further inside an element are edited among its children. -/
theorem led_inside {α : Type} (edit : Tag → List Node → α × Tag × List Node) {below : List Nat} (hne : below ≠ []) :
    Led (fun path => editElement edit (path ++ below)) (inChildren (editElement edit below)) where
  last i ns := (led_element edit).through i below ns hne
  through i path ns hpath := (led_element edit).through i (path ++ below) ns (by simp [hpath])

/-- So are child lists. -/
theorem led_children {α : Type} (edit : List Node → Option (α × List Node)) (below : List Nat) :
    Led (fun path => editChildren edit (path ++ below)) (inChildren (editChildren edit below)) where
  last _ _ := rfl
  through _ _ _ _ := rfl

end Surroundings

/-! ## Edits -/

/-- The element that a path leads to, with its children. -/
def elementAt? (path : List Nat) (ns : List Node) : Option (Tag × List Node) :=
  (editElement inspect path ns).map Prod.fst

/-- An edit of a document; its path leads to the element or to the one whose child list is edited. -/
inductive Edit where
  | setAttributes (path : List Nat) (attributes : List Attribute)
  | clearChildren (path : List Nat)
  | takeChildren (path : List Nat)
  | insertNode (path : List Nat) (index : Nat) (node : Node)
  | removeNode (path : List Nat) (index : Nat)

namespace Edit

/-- Where an edit is led to. -/
def path : Edit → List Nat
  | setAttributes path _ => path
  | clearChildren path => path
  | takeChildren path => path
  | insertNode path _ _ => path
  | removeNode path _ => path

/-- The nodes behind an edit, unless it fails. -/
def apply (ns : List Node) : Edit → Option (List Node)
  | setAttributes path attributes => (editElement (Markup.setAttributes attributes) path ns).map Prod.snd
  | clearChildren path => (editElement Markup.clearChildren path ns).map Prod.snd
  | takeChildren path => (editElement Markup.takeChildren path ns).map Prod.snd
  | insertNode path index node =>
    (editChildren (fun ns => some ((), Markup.insertNode index node ns)) path ns).map Prod.snd
  | removeNode path index => (editChildren (Markup.removeNode index) path ns).map Prod.snd

/-- Some edit of the element that a path leads to, or of something inside it, makes one document of another. -/
def Inside (path : List Nat) (d d' : Document) : Prop :=
  ∃ e : Edit, path <+: e.path ∧ e.apply d.children = some d'.children

variable {c : Surroundings} {tag : Tag} {kids ns : List Node} {below : List Nat}

open Surroundings

theorem exists_of_element {α : Type} {edit : Tag → List Node → α × Tag × List Node}
    (h : (editElement edit (c.path ++ below) (c.fill (.element tag kids))).map Prod.snd = some ns) :
    ∃ tag' kids', ns = c.fill (.element tag' kids') := by
  by_cases hbelow : below = []
  · subst hbelow
    rw [List.append_nil, (led_element edit).edit_fill] at h
    exact ⟨_, _, (Option.some.inj h).symm⟩
  · rw [(led_inside edit hbelow).edit_fill, inChildren] at h
    obtain ⟨r, hr, rfl⟩ := Option.map_eq_some_iff.mp h
    obtain ⟨⟨a, n⟩, hn, rfl⟩ := Option.map_eq_some_iff.mp hr
    obtain ⟨⟨b, ks⟩, _, hks⟩ := Option.map_eq_some_iff.mp hn
    obtain ⟨rfl, rfl⟩ := Prod.mk.inj hks
    exact ⟨tag, ks, rfl⟩

theorem exists_of_children {α : Type} {edit : List Node → Option (α × List Node)}
    (h : (editChildren edit (c.path ++ below) (c.fill (.element tag kids))).map Prod.snd = some ns) :
    ∃ kids', ns = c.fill (.element tag kids') := by
  rw [(led_children edit below).edit_fill, inChildren] at h
  obtain ⟨r, hr, rfl⟩ := Option.map_eq_some_iff.mp h
  obtain ⟨⟨a, n⟩, hn, rfl⟩ := Option.map_eq_some_iff.mp hr
  obtain ⟨⟨b, ks⟩, _, hks⟩ := Option.map_eq_some_iff.mp hn
  obtain ⟨rfl, rfl⟩ := Prod.mk.inj hks
  exact ⟨ks, rfl⟩

/-- An edit inside an element leaves its surroundings. -/
theorem Inside.step {d d' : Document} (h : Inside c.path d d') (hd : d.children = c.fill (.element tag kids)) :
    ∃ tag' kids', d'.children = c.fill (.element tag' kids') := by
  obtain ⟨e, ⟨below, hpath⟩, happly⟩ := h
  rw [hd] at happly
  cases e with
  | setAttributes path attributes =>
      obtain rfl : c.path ++ below = path := hpath
      exact exists_of_element happly
  | clearChildren path =>
      obtain rfl : c.path ++ below = path := hpath
      exact exists_of_element happly
  | takeChildren path =>
      obtain rfl : c.path ++ below = path := hpath
      exact exists_of_element happly
  | insertNode path index node =>
      obtain rfl : c.path ++ below = path := hpath
      exact ⟨tag, exists_of_children happly⟩
  | removeNode path index =>
      obtain rfl : c.path ++ below = path := hpath
      exact ⟨tag, exists_of_children happly⟩

/-- So does any row of them. -/
theorem Inside.run {d d' : Document} (h : Relation.ReflTransGen (Inside c.path) d d')
    (hd : d.children = c.fill (.element tag kids)) : ∃ tag' kids', d'.children = c.fill (.element tag' kids') := by
  induction h with
  | refl => exact ⟨tag, kids, hd⟩
  | tail _ hstep ih =>
      obtain ⟨tag', kids', hd'⟩ := ih
      exact hstep.step hd'

end Edit

/-- A path that leads to an element leads to a gap that the element fills. -/
theorem exists_surroundings {path : List Nat} {ns kids : List Node} {tag : Tag}
    (h : elementAt? path ns = some (tag, kids)) :
    ∃ c : Surroundings, c.path = path ∧ ns = c.fill (.element tag kids) := by
  have hne : path ≠ [] := by
    rintro rfl
    cases h
  obtain ⟨r, hedit, hr⟩ := Option.map_eq_some_iff.mp h
  obtain ⟨c, n, rfl, rfl, _⟩ := (Surroundings.led_element inspect).exists_fill hne hedit
  rw [(Surroundings.led_element inspect).edit_fill] at hedit
  cases n with
  | text | script | expression => cases hedit
  | element t ks =>
      cases hedit
      cases hr
      exact ⟨c, rfl, rfl⟩

/-- **Edits are local.**  Around every element of a document stands a text in front of it and a text behind it, made of
the nodes outside it and of the tags around it.  Whatever element is put in its place is printed between these texts,
and so is what any edits make of it that are led to the element or to something inside it.  This holds of every
document, so of one that was read and edited in any way. -/
theorem edits_local {d : Document} {path : List Nat} {tag : Tag} {kids : List Node}
    (hat : elementAt? path d.children = some (tag, kids)) :
    ∃ c : Surroundings, c.path = path ∧ d.print = c.front ++ Node.print (.element tag kids) ++ c.back ∧
      (∀ tag' kids', ∃ d' : Document,
        editElement (fun _ _ => ((), tag', kids')) path d.children = some ((), d'.children) ∧
          d'.print = c.front ++ Node.print (.element tag' kids') ++ c.back) ∧
      ∀ d', Relation.ReflTransGen (Edit.Inside path) d d' →
        ∃ tag' kids', elementAt? path d'.children = some (tag', kids') ∧
          d'.print = c.front ++ Node.print (.element tag' kids') ++ c.back := by
  obtain ⟨c, rfl, hd⟩ := exists_surroundings hat
  refine ⟨c, rfl, ?_, ?_, ?_⟩
  · rw [Document.print, hd, c.print_fill]
  · intro tag' kids'
    refine ⟨⟨c.fill (.element tag' kids')⟩, ?_, c.print_fill _⟩
    rw [hd, (Surroundings.led_element _).edit_fill]
    rfl
  · intro d' hedits
    obtain ⟨tag', kids', hd'⟩ := Edit.Inside.run hedits hd
    refine ⟨tag', kids', ?_, ?_⟩
    · rw [elementAt?, hd', (Surroundings.led_element _).edit_fill]
      rfl
    · rw [Document.print, hd', c.print_fill]

/-- An element that closed itself gets a child, inside one that got an attribute before. -/
theorem edits_local_nested :
    ∃ d₀ d₁ d₂ : Document, parse "a<A>b<B />c</A>".toList = .ok d₀ ∧
      Edit.apply d₀.children (.setAttributes [1] [.spread ['x']]) = some d₁.children ∧
      Edit.apply d₁.children (.insertNode [1, 1] 0 (.text ['e'])) = some d₂.children ∧
      (elementAt? [1, 1] d₁.children).isSome = true ∧ ∃ c : Surroundings, c.path = [1, 1] ∧
        d₁.print = c.front ++ "<B />".toList ++ c.back ∧ d₂.print = c.front ++ "<B>e</B>".toList ++ c.back ∧
        d₂.print = "a<A \x7b...x\x7d>b<B>e</B>c</A>".toList := by
  refine ⟨⟨_⟩, ⟨_⟩, ⟨_⟩, rfl, rfl, rfl, rfl, ?_⟩
  generalize hd₁ : Document.mk _ = d₁
  generalize hd₂ : Document.mk _ = d₂
  obtain ⟨tag, hat⟩ : ∃ tag, elementAt? [1, 1] d₁.children = some (tag, []) := by
    subst hd₁
    exact ⟨_, rfl⟩
  obtain ⟨c, hpath, hprint, _, hedits⟩ := edits_local hat
  have hinside : Edit.Inside [1, 1] d₁ d₂ := by
    subst hd₁ hd₂
    exact ⟨.insertNode [1, 1] 0 (.text ['e']), List.prefix_rfl, rfl⟩
  obtain ⟨tag', kids', hat', hprint'⟩ := hedits d₂ (.single hinside)
  refine ⟨c, hpath, ?_, ?_, ?_⟩
  · subst hd₁
    cases hat
    exact hprint
  · subst hd₂
    cases hat'
    exact hprint'
  · subst hd₂
    rfl

end Markup
end StoryDocs
