import Mathlib.Data.List.Chain
import StoryDocs.Proofs.Markup.Rereading

/-!
# Prose is never cut

The reader makes one node of the prose between two other nodes.  So the nodes of a document that was read are
told by its text without joining any of them: `Document.bare` only forgets positions and how tags were written.
-/

namespace StoryDocs
namespace Markup

/-! ## Documents without positions and tags -/

mutual

/-- A node without its position, whether it starts its line, and how its tags were written. -/
def Node.bare : Node → Node
  | .text value => .text value
  | .script value => .script value
  | .expression value _ => .expression value false
  | .element tag children =>
    .element { name := tag.name, attributes := tag.attributes } (Node.bareAll children)

/-- Nodes without their positions, whether they start their lines, and how their tags were written. -/
def Node.bareAll : List Node → List Node
  | [] => []
  | n :: ns => n.bare :: Node.bareAll ns

end

/-- A document without positions and how tags were written. -/
def Document.bare (d : Document) : Document :=
  ⟨Node.bareAll d.children⟩

namespace Node

/-- What is a single element without positions is one with them. -/
theorem exists_element_of_bareAll {ns kids : List Node} {tag : Tag} (h : bareAll ns = [.element tag kids]) :
    ∃ t ks, ns = [.element t ks] ∧ t.name = tag.name ∧ t.attributes = tag.attributes := by
  cases ns with
  | nil => cases h
  | cons n ns =>
      rw [bareAll] at h
      obtain ⟨hfirst, hnone⟩ := List.cons.inj h
      cases ns with
      | cons m ns => cases hnone
      | nil =>
          cases n with
          | text | script | expression => cases hfirst
          | element t ks =>
              obtain ⟨rfl, _⟩ := Node.element.inj hfirst
              exact ⟨t, ks, rfl, rfl, rfl⟩

/-- Whether a node is prose. -/
def isText : Node → Bool
  | text _ => true
  | _ => false

/-- Two nodes that are not both prose. -/
def Apart (n m : Node) : Prop :=
  n.isText = false ∨ m.isText = false

theorem Apart.symm {n m : Node} (h : Apart n m) : Apart m n :=
  Or.symm h

/-- In no list of children two nodes of prose stand next to each other. -/
inductive Parted : Node → Prop
  | text (value : List Char) : Parted (.text value)
  | script (value : List Char) : Parted (.script value)
  | expression (value : List Char) (flow : Bool) : Parted (.expression value flow)
  | element {tag : Tag} {children : List Node} (hapart : children.IsChain Apart)
      (hchildren : ∀ n ∈ children, Parted n) : Parted (.element tag children)

theorem joinText_bareAll {ns : List Node} {value : List Char}
    (h : (Node.text value :: ns).IsChain Apart) :
    joinText value (bareAll ns) = .text value :: bareAll ns := by
  cases ns with
  | nil => rfl
  | cons n ns =>
      rw [List.isChain_cons_cons] at h
      cases n with
      | text next =>
          rcases h.1 with htext | htext
          · cases htext
          · cases htext
      | script | expression | element => rfl

theorem plainAll_eq_bareAll {ns : List Node} (h : ns.IsChain Apart)
    (hns : ∀ n ∈ ns, ∀ rest, (n :: rest).IsChain Apart →
      n.plainOnto (bareAll rest) = n.bare :: bareAll rest) :
    plainAll ns = bareAll ns := by
  induction ns with
  | nil => rfl
  | cons n ns ih =>
      rw [plainAll, ih h.tail fun m hm => hns m (by simp [hm]), hns n (by simp) ns h, bareAll]

/-- Where no prose stands next to prose, nothing is joined. -/
theorem Parted.plainOnto {n : Node} (h : n.Parted) {rest : List Node}
    (hchain : (n :: rest).IsChain Apart) : n.plainOnto (bareAll rest) = n.bare :: bareAll rest := by
  induction h generalizing rest with
  | text value => exact joinText_bareAll hchain
  | script value => rfl
  | expression value flow => rfl
  | element hapart _ ih =>
      rw [Node.plainOnto, plainAll_eq_bareAll hapart fun n hn rest hrest => ih n hn hrest, bare]

end Node

/-! ## The nodes that were read -/

namespace State

open Node

variable {s t : State}

/-- So far no prose stands next to prose; the prose that is pending is not yet a node. -/
structure Parted (s : State) : Prop where
  nodes : s.nodes.IsChain Apart
  last : ∀ n ∈ s.nodes.head?, n.isText = false
  parted : ∀ n ∈ s.nodes, n.Parted
  before : ∀ f ∈ s.frames, f.before.IsChain Apart ∧ ∀ n ∈ f.before, n.Parted

namespace Parted

theorem start (source : List Char) : Parted { rest := source } where
  nodes := .nil
  last := by simp
  parted := by simp
  before := by simp

theorem isChain_cons {node : Node} {ns : List Node} (h : ns.IsChain Apart)
    (hnode : node.isText = false) : (node :: ns).IsChain Apart := by
  cases ns with
  | nil => exact .singleton node
  | cons n ns => exact .cons_cons (.inl hnode) h

theorem flushed (h : s.Parted) : s.flushed.IsChain Apart ∧ ∀ n ∈ s.flushed, n.Parted := by
  unfold State.flushed
  split
  · exact ⟨h.nodes, h.parted⟩
  · refine ⟨?_, ?_⟩
    · cases hnodes : s.nodes with
      | nil => exact .singleton _
      | cons n ns =>
          have hlast := h.last n (by rw [hnodes]; rfl)
          have hchain := h.nodes
          rw [hnodes] at hchain
          exact .cons_cons (.inr hlast) hchain
    · exact List.forall_mem_cons.mpr ⟨.text _, h.parted⟩

/-- A node that is no prose is taken. -/
theorem takeNode (h : s.Parted) {node : Node} (hnode : node.isText = false) (hparted : node.Parted)
    (n : Nat) : (s.takeNode n node).Parted where
  nodes := isChain_cons h.flushed.1 hnode
  last := by
    rintro m ⟨⟩
    exact hnode
  parted := List.forall_mem_cons.mpr ⟨hparted, h.flushed.2⟩
  before := h.before

end Parted

theorem Move.parted (hmove : Move s t) (h : s.Parted) : t.Parted := by
  cases hmove with
  | prose _ => exact ⟨h.nodes, h.last, h.parted, h.before⟩
  | script _ _ _ => exact h.takeNode rfl (.script _) _
  | expression _ _ => exact h.takeNode rfl (.expression _ _) _
  | childless _ _ _ => exact h.takeNode rfl (.element .nil (by simp)) _
  | opening _ _ _ =>
      refine ⟨.nil, by simp, by simp, ?_⟩
      exact List.forall_mem_cons.mpr ⟨h.flushed, h.before⟩
  | @closing f fs n hframes _ _ =>
      have hbefore := h.before
      rw [hframes] at hbefore
      obtain ⟨⟨hchain, hparted⟩, hrest⟩ := List.forall_mem_cons.mp hbefore
      -- The children of the element that is closed are all nodes read since it was opened.
      have helement : (closed f (s.rest.take n) s.flushed.reverse).Parted := by
        refine .element ?_ fun m hm => h.flushed.2 m (List.mem_reverse.mp hm)
        rw [List.isChain_reverse]
        exact h.flushed.1.imp fun _ _ hapart => hapart.symm
      refine ⟨Parted.isChain_cons hchain rfl, ?_, List.forall_mem_cons.mpr ⟨helement, hparted⟩, hrest⟩
      rintro m ⟨⟩
      rfl

end State

/-- In a document that was read no prose stands next to prose. -/
theorem parse_parted {source : List Char} {d : Document} (h : parse source = .ok d) :
    d.children.IsChain Node.Apart ∧ ∀ n ∈ d.children, n.Parted := by
  obtain ⟨last, hlast, _, _, hchildren⟩ :=
    State.parse_invariant State.Parted (fun _ hmove hs => hmove.parted hs) (.start source) h
  rw [hchildren, List.isChain_reverse]
  refine ⟨hlast.flushed.1.imp fun _ _ hapart => hapart.symm, ?_⟩
  exact fun n hn => hlast.flushed.2 n (List.mem_reverse.mp hn)

/-- So its text tells all of it but positions and how tags were written. -/
theorem plain_eq_bare_of_parse {source : List Char} {d : Document} (h : parse source = .ok d) :
    d.plain = d.bare := by
  obtain ⟨hchain, hparted⟩ := parse_parted h
  exact congrArg Document.mk
    (Node.plainAll_eq_bareAll hchain fun n hn _ hrest => (hparted n hn).plainOnto hrest)

/-- An element that is recognised where its text stands is read from it. -/
theorem exists_parse_of_reads {tag : Tag} {kids : List Node} (h : Reads true true [.element tag kids] []) :
    ∃ t ks, parse (Node.print (.element tag kids)) = .ok ⟨[.element t ks]⟩ ∧ t.name = tag.name ∧
      t.attributes = tag.attributes := by
  obtain ⟨⟨children⟩, hparse, hplain⟩ := @Reads.parse ⟨[.element tag kids]⟩ h
  rw [plain_eq_bare_of_parse hparse] at hplain
  obtain ⟨t, ks, rfl, hname, hattributes⟩ := Node.exists_element_of_bareAll (congrArg Document.children hplain)
  refine ⟨t, ks, ?_, hname, hattributes⟩
  simpa [Document.print] using hparse

end Markup
end StoryDocs
