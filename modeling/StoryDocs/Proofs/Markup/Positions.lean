import Mathlib.Data.List.Induction
import StoryDocs.Proofs.Markup.Alignment
import StoryDocs.Proofs.Markup.Lossless

/-!
# Positions of elements

The reader counts lines and columns as it goes, and an element keeps the position at which it was met.  So
every element of a document that was read stands where its tag says: behind as much text as the position
counts, at the bracket of its opening tag.
-/

namespace StoryDocs
namespace Markup

open Text

/-! ## Counting -/

namespace Position

theorem after_append (p : Position) (s t : List Char) : p.after (s ++ t) = (p.after s).after t := by
  simp [after]

theorem after_concat (p : Position) (s : List Char) (c : Char) :
    p.after (s ++ [c]) = (p.after s).advance c := by
  simp [after]

/-- The offset of a position counts the bytes in front of it. -/
theorem offset_after (p : Position) (s : List Char) : (p.after s).offset = p.offset + byteSize s := by
  induction s generalizing p with
  | nil => rfl
  | cons c s ih =>
      have hoffset : (p.advance c).offset = p.offset + c.utf8Size := by
        unfold advance
        split
        · rfl
        · rfl
      show ((p.advance c).after s).offset = _
      rw [ih, hoffset, byteSize, Nat.add_assoc]

/-- The line of a position is one more than the line feeds in front of it. -/
theorem line_after_start (s : List Char) : (start.after s).line = s.count '\n' + 1 := by
  induction s using List.reverseRecOn with
  | nil => rfl
  | append_singleton s c ih =>
      rw [after_concat, advance, List.count_append]
      by_cases hc : c = '\n'
      · simp [hc, ih]
      · simp [hc, ih]

/-- The column of a position is one more than the characters between the line feed in front of it and the
position. -/
theorem column_after_start (s : List Char) :
    (start.after s).column = (s.reverse.takeWhile (· != '\n')).length + 1 := by
  induction s using List.reverseRecOn with
  | nil => rfl
  | append_singleton s c ih =>
      rw [after_concat, advance, List.reverse_concat]
      by_cases hc : c = '\n'
      · simp [hc]
      · simp [hc, ih]

end Position

theorem Place.position_after (p : Place) (s : List Char) :
    (p.after s).position = p.position.after s := by
  induction s generalizing p with
  | nil => rfl
  | cons c s ih => exact ih (p.advance c)

/-! ## Nodes in their places -/

/-- Every element of a list of nodes that starts at a position stands where its tag says, at the bracket of
an opening tag with its name. -/
inductive Placed : Position → List Node → Prop
  | nil (p : Position) : Placed p []
  | leaf {p : Position} {n : Node} {rest : List Node}
      (hleaf : ∀ tag children, n ≠ .element tag children) (hrest : Placed (p.after n.print) rest) :
      Placed p (n :: rest)
  | element {p : Position} {tag : Tag} {source : TagSource} {children rest : List Node}
      (hposition : tag.position = p) (hsource : tag.source = some source)
      (hname : ('<' :: tag.name) <+: source.opening)
      (hchildren : Placed (p.after source.opening) children)
      (hrest : Placed (p.after (Node.print (.element tag children))) rest) :
      Placed p (.element tag children :: rest)

/-- Nodes that start at a place stand where they say: elements and expressions tell whether only an indent is before
them on their line, and elements keep their position and the tags as they stand there. -/
inductive Standing : Place → List Node → Prop
  | nil (p : Place) : Standing p []
  | text {p : Place} {value : List Char} {rest : List Node} (hrest : Standing (p.after value) rest) :
      Standing p (.text value :: rest)
  | script {p : Place} {value : List Char} {rest : List Node} (hrest : Standing (p.after value) rest) :
      Standing p (.script value :: rest)
  | expression {p : Place} {value : List Char} {flow : Bool} {rest : List Node} (hflow : flow = p.indented)
      (hrest : Standing (p.after (Node.print (.expression value flow))) rest) :
      Standing p (.expression value flow :: rest)
  | childless {p : Place} {tag : Tag} {opening : List Char} {rest : List Node} (hposition : tag.position = p.position)
      (hflow : tag.flow = p.indented) (hsource : tag.source = some ⟨opening, none⟩)
      (hname : ('<' :: tag.name) <+: opening) (hrest : Standing (p.after (Node.print (.element tag []))) rest) :
      Standing p (.element tag [] :: rest)
  | enclosing {p : Place} {tag : Tag} {opening closing : List Char} {children rest : List Node}
      (hposition : tag.position = p.position) (hflow : tag.flow = p.indented)
      (hsource : tag.source = some ⟨opening, some closing⟩) (hname : ('<' :: tag.name) <+: opening)
      (hchildren : Standing (p.after opening) children)
      (hrest : Standing (p.after (Node.print (.element tag children))) rest) :
      Standing p (.element tag children :: rest)

namespace Standing

variable {p : Place} {ns ms : List Node} {n : Node}

theorem append (hns : Standing p ns) (hms : Standing (p.after (Node.printAll ns)) ms) : Standing p (ns ++ ms) := by
  induction hns with
  | nil p => simpa [Place.after] using hms
  | text _ ih =>
      rw [Node.printAll_cons, Place.after_append, Node.print] at hms
      exact .text (ih hms)
  | script _ ih =>
      rw [Node.printAll_cons, Place.after_append, Node.print] at hms
      exact .script (ih hms)
  | expression hflow _ ih =>
      rw [Node.printAll_cons, Place.after_append] at hms
      exact .expression hflow (ih hms)
  | childless hposition hflow hsource hname _ ih =>
      rw [Node.printAll_cons, Place.after_append] at hms
      exact .childless hposition hflow hsource hname (ih hms)
  | enclosing hposition hflow hsource hname hchildren _ _ ih =>
      rw [Node.printAll_cons, Place.after_append] at hms
      exact .enclosing hposition hflow hsource hname hchildren (ih hms)

theorem concat (hns : Standing p ns) (hn : Standing (p.after (Node.printAll ns)) [n]) : Standing p (ns ++ [n]) :=
  hns.append hn

theorem placed (h : Standing p ns) : Placed p.position ns := by
  have hleaf : ∀ {p : Place} {n : Node} {rest : List Node}, (∀ tag children, n ≠ .element tag children) →
      Placed (p.after n.print).position rest → Placed p.position (n :: rest) := by
    intro p n rest hleaf hrest
    rw [Place.position_after] at hrest
    exact .leaf hleaf hrest
  induction h with
  | nil p => exact .nil _
  | text _ ih => exact hleaf (fun _ _ => Node.noConfusion) (by rwa [Node.print])
  | script _ ih => exact hleaf (fun _ _ => Node.noConfusion) (by rwa [Node.print])
  | expression _ _ ih => exact hleaf (fun _ _ => Node.noConfusion) ih
  | childless hposition _ hsource hname _ ih =>
      rw [Place.position_after] at ih
      exact .element hposition hsource hname (.nil _) ih
  | enclosing hposition _ hsource hname _ _ ihchildren ih =>
      rw [Place.position_after] at ihchildren ih
      exact .element hposition hsource hname ihchildren ih

end Standing

/-! ## States -/

/-- An opening tag that is read starts with a bracket and its name. -/
theorem readOpeningTag_starts {s : List Char} {t : OpeningTag} {n : Nat}
    (hbracket : s.head? = some '<') (h : readOpeningTag s = .ok ⟨t, n⟩) :
    ('<' :: t.name) <+: s.take n := by
  obtain ⟨rest, rfl⟩ := List.head?_eq_some_iff.mp hbracket
  simp only [readOpeningTag, List.drop_succ_cons, List.drop_zero] at h
  split at h
  · cases h
  · cases h
    rename_i e _
    have hname : rest.takeWhile isNameChar <+:
        rest.take ((rest.takeWhile isNameChar).length + e.size) :=
      List.prefix_take_iff.mpr ⟨List.takeWhile_prefix isNameChar, Nat.le_add_right _ _⟩
    rw [Nat.add_right_comm, List.take_succ_cons, List.cons_prefix_cons]
    exact ⟨rfl, hname⟩

namespace State

/-- The text in front of the children of the innermost open element. -/
def outer (frames : List Frame) : List Char :=
  frames.reverse.flatMap Frame.written

theorem outer_cons (f : Frame) (fs : List Frame) :
    outer (f :: fs) = outer fs ++ (Node.printAll f.before.reverse ++ f.opening) := by
  simp [outer, Frame.written]

/-- The open elements stand where their tags say, each behind the nodes before it. -/
def FramesStanding : List Frame → Prop
  | [] => True
  | f :: fs =>
    Markup.Standing (Place.start.after (outer fs)) f.before.reverse ∧
      f.tag.position = (Place.start.after (outer fs ++ Node.printAll f.before.reverse)).position ∧
      f.tag.flow = (Place.start.after (outer fs ++ Node.printAll f.before.reverse)).indented ∧
      ('<' :: f.tag.name) <+: f.opening ∧ FramesStanding fs

/-- All that was read so far stands where it says, and the reader knows where it is. -/
structure Standing (s : State) : Prop where
  frames : FramesStanding s.frames
  nodes : Markup.Standing (Place.start.after (outer s.frames)) s.nodes.reverse
  place : s.place = Place.start.after s.written

variable {s t : State}

theorem written_eq (s : State) : s.written = outer s.frames ++ Node.printAll s.flushed.reverse := by
  rw [written, printAll_flushed, outer, List.append_assoc]

namespace Standing

theorem flushed (h : s.Standing) : Markup.Standing (Place.start.after (outer s.frames)) s.flushed.reverse := by
  unfold State.flushed
  split
  · exact h.nodes
  · rw [List.reverse_cons]
    exact h.nodes.concat (.text (.nil _))

/-- The reader knows where it is behind what it takes. -/
theorem place_after (h : s.Standing) (text : List Char) :
    s.place.after text = Place.start.after (s.written ++ text) := by
  rw [Place.after_append, ← h.place]

/-- A node that is taken as it stands is standing, if it and its children do. -/
theorem takeNode (h : s.Standing) {n : Nat} {node : Node} (hprint : node.print = s.rest.take n)
    (hnode : Markup.Standing s.place [node]) : (s.takeNode n node).Standing := by
  have hwritten := written_eq s
  refine ⟨h.frames, ?_, ?_⟩
  · show Markup.Standing _ (node :: s.flushed).reverse
    rw [List.reverse_cons]
    refine h.flushed.concat ?_
    rw [← Place.after_append, ← hwritten, ← h.place]
    exact hnode
  · have hread : (s.takeNode n node).written = s.written ++ s.rest.take n := by
      rw [hwritten, written, ← hprint]
      simp [State.takeNode, skip, outer]
    rw [hread]
    exact h.place_after _

end Standing

/-- Every move keeps what was read where it stands. -/
theorem Move.standing (hmove : Move s t) (h : s.Standing) : t.Standing := by
  have hwritten := written_eq s
  cases hmove with
  | @prose n _ =>
      refine ⟨h.frames, h.nodes, ?_⟩
      have hread : (s.takeProse n).written = s.written ++ s.rest.take n := by
        simp [takeProse, skip, written]
      rw [hread]
      exact h.place_after _
  | script _ _ _ => exact h.takeNode (by rw [Node.print]) (.script (.nil _))
  | expression htaken _ => exact h.takeNode (by rw [Node.print, htaken]) (.expression rfl (.nil _))
  | childless hbracket hread _ =>
      refine h.takeNode (by simp [Node.print, Tag.print]) ?_
      exact .childless rfl rfl rfl (readOpeningTag_starts hbracket hread) (.nil _)
  -- An opened tag waits in its frame with the place at which it was opened.
  | @opening tag n hbracket hread _ =>
      refine ⟨⟨h.flushed, ?_, ?_, readOpeningTag_starts hbracket hread, h.frames⟩, .nil _, ?_⟩
      · rw [← hwritten, ← h.place]
        rfl
      · rw [← hwritten, ← h.place]
        rfl
      · have hread : State.written { s.skip n with
            frames := ⟨s.tagOf tag, s.rest.take n, s.flushed⟩ :: s.frames, nodes := [], pending := [] } =
            s.written ++ s.rest.take n := by
          rw [hwritten]
          simp [written, outer, Frame.written]
        rw [hread]
        exact h.place_after _
  -- It was told that place when it was opened; the children stand behind its opening text.
  | @closing f fs n hframes _ _ =>
      obtain ⟨hbefore, hposition, hflow, hname, houter⟩ := hframes ▸ h.frames
      have hchildren := h.flushed
      rw [hframes, outer_cons, Place.after_append, Place.after_append] at hchildren
      rw [Place.after_append] at hposition hflow
      refine ⟨houter, ?_, ?_⟩
      · show Markup.Standing _ (closed f _ _ :: f.before).reverse
        rw [List.reverse_cons]
        exact hbefore.concat (.enclosing hposition hflow rfl hname hchildren (.nil _))
      · have hread : State.written { s.skip n with
            frames := fs, nodes := closed f (s.rest.take n) s.flushed.reverse :: f.before,
            pending := [] } = s.written ++ s.rest.take n := by
          rw [hwritten, hframes, outer_cons]
          simp [written, outer, closed, Node.print, Tag.print]
        rw [hread]
        exact h.place_after _

theorem Standing.start (source : List Char) : Standing { rest := source } :=
  ⟨trivial, .nil _, rfl⟩

end State

/-- The nodes of a document stand where they say. -/
theorem parse_standing {source : List Char} {d : Document} (h : parse source = .ok d) :
    Standing .start d.children := by
  obtain ⟨last, hlast, _, hframes, hchildren⟩ :=
    State.parse_invariant State.Standing (fun _ hmove hs => hmove.standing hs) (.start source) h
  have hflushed := hlast.flushed
  rwa [hframes, ← hchildren] at hflushed

/-- The elements of a document stand where their tags say. -/
theorem parse_placed {source : List Char} {d : Document} (h : parse source = .ok d) :
    Placed .start d.children :=
  (parse_standing h).placed

end Markup
end StoryDocs
