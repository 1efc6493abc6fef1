import StoryDocs.Proofs.Markup.Positions
import StoryDocs.Proofs.Markup.Rereading

/-!
# Documents below a text

What the reader does depends on the text ahead and on where lines start, not on what it has read.  So below a text of
whole lines a document is read as it is alone: the same nodes, further down, with the text above in front of them, or
the same error, further down.
-/

namespace StoryDocs
namespace Markup

open Text

variable {above s : List Char} {ns ms : List Node} {n : Node}

/-! ## Positions -/

/-- A position below a text of whole lines. -/
def Position.lowered (above : List Char) (p : Position) : Position :=
  ⟨above.count '\n' + p.line, p.column, byteSize above + p.offset⟩

/-- A place below a text of whole lines. -/
def Place.lowered (above : List Char) (p : Place) : Place :=
  { p with position := p.position.lowered above }

/-- An error below a text of whole lines. -/
def Error.lowered (above : List Char) (e : Error) : Error :=
  { e with position := e.position.lowered above }

theorem Position.advance_lowered (above : List Char) (p : Position) (c : Char) :
    (p.lowered above).advance c = (p.advance c).lowered above := by
  unfold advance lowered
  split
  · rw [Nat.add_assoc, Nat.add_assoc]
  · rw [Nat.add_assoc]

theorem Position.after_lowered (above : List Char) (p : Position) (s : List Char) :
    (p.lowered above).after s = (p.after s).lowered above := by
  induction s generalizing p with
  | nil => rfl
  | cons c s ih =>
      show ((p.lowered above).advance c).after s = _
      rw [advance_lowered, ih]
      rfl

theorem Place.after_lowered (above : List Char) (p : Place) (s : List Char) :
    (p.lowered above).after s = (p.after s).lowered above := by
  induction s generalizing p with
  | nil => rfl
  | cons c s ih =>
      have hadvance : (p.lowered above).advance c = (p.advance c).lowered above := by
        unfold advance lowered
        rw [Position.advance_lowered]
      show ((p.lowered above).advance c).after s = _
      rw [hadvance, ih]
      rfl

/-- Behind whole lines stands the start of a document below them. -/
theorem Place.after_lines (s : List Char) :
    Place.start.after (s ++ ['\n']) = Place.start.lowered (s ++ ['\n']) := by
  have hline := Position.line_after_start (s ++ ['\n'])
  have hcolumn := Position.column_after_start (s ++ ['\n'])
  have hoffset := Position.offset_after .start (s ++ ['\n'])
  have hposition : (Place.start.after (s ++ ['\n'])).position = Position.start.lowered (s ++ ['\n']) := by
    rw [Place.position_after]
    show Position.start.after (s ++ ['\n']) = _
    generalize Position.start.after (s ++ ['\n']) = p at hline hcolumn hoffset ⊢
    obtain ⟨line, column, offset⟩ := p
    simp only [List.reverse_append, List.reverse_cons, List.reverse_nil, List.nil_append,
      List.singleton_append] at hcolumn
    obtain rfl : line = _ := hline
    obtain rfl : column = 1 := hcolumn
    obtain rfl : offset = _ := hoffset
    show Position.mk _ _ _ = Position.mk _ _ _
    congr 1
    exact Nat.add_comm _ _
  have hindented : (Place.start.after (s ++ ['\n'])).indented = true := by
    rw [Place.after, List.foldl_append]
    rfl
  generalize Place.start.after (s ++ ['\n']) = p at hposition hindented ⊢
  obtain ⟨position, indented⟩ := p
  obtain rfl : position = _ := hposition
  obtain rfl : indented = true := hindented
  rfl

/-! ## Nodes -/

/-- A tag below a text of whole lines. -/
def Tag.lowered (above : List Char) (t : Tag) : Tag :=
  { t with position := t.position.lowered above }

mutual

/-- A node below a text of whole lines. -/
def Node.lowered (above : List Char) : Node → Node
  | .text value => .text value
  | .script value => .script value
  | .expression value flow => .expression value flow
  | .element tag children => .element (tag.lowered above) (Node.allLowered above children)

/-- Nodes below a text of whole lines. -/
def Node.allLowered (above : List Char) : List Node → List Node
  | [] => []
  | n :: ns => n.lowered above :: Node.allLowered above ns

end

/-- A document with a text of whole lines above it. -/
def Document.lowered (above : List Char) (d : Document) : Document :=
  ⟨joinText above (Node.allLowered above d.children)⟩

theorem Node.allLowered_eq (above : List Char) (ns : List Node) :
    Node.allLowered above ns = ns.map (Node.lowered above) := by
  induction ns with
  | nil => rfl
  | cons n ns ih => rw [Node.allLowered, ih, List.map_cons]

theorem joinText_append_nodes (ms : List Node) (h : ns ≠ []) :
    joinText above (ns ++ ms) = joinText above ns ++ ms := by
  obtain ⟨n, ns, rfl⟩ := List.exists_cons_of_ne_nil h
  cases n with
  | text value => rfl
  | script value => rfl
  | expression value flow => rfl
  | element tag children => rfl

/-- The text above is put in front of the nodes of a list whose last node comes first. -/
def under (above : List Char) (ns : List Node) : List Node :=
  (joinText above ns.reverse).reverse

theorem under_cons (n : Node) (h : ns ≠ []) : under above (n :: ns) = n :: under above ns := by
  have hreverse : ns.reverse ≠ [] := fun hnil => h (List.reverse_eq_nil_iff.mp hnil)
  rw [under, List.reverse_cons, joinText_append_nodes [n] hreverse, List.reverse_append]
  rfl

theorem under_cons_of_ne_text (ns : List Node) (h : ∀ value, n ≠ .text value) :
    under above (n :: ns) = n :: under above ns := by
  cases ns with
  | cons m ns => exact under_cons n (List.cons_ne_nil m ns)
  | nil =>
      cases n with
      | text value => exact absurd rfl (h value)
      | script value => rfl
      | expression value flow => rfl
      | element tag children => rfl

/-! ## States -/

/-- The nodes of one level below a text, which stands in front of the nodes outside all elements. -/
def levelLowered (above : List Char) (outside : Bool) (ns : List Node) : List Node :=
  if outside then under above (Node.allLowered above ns) else Node.allLowered above ns

theorem levelLowered_cons (outside : Bool) (ns : List Node) (h : ∀ value, n ≠ .text value) :
    levelLowered above outside (n :: ns) = n.lowered above :: levelLowered above outside ns := by
  have hbelow : ∀ value, n.lowered above ≠ .text value := by
    intro value
    cases n with
    | text value => exact absurd rfl (h value)
    | script value => exact nofun
    | expression value flow => exact nofun
    | element tag children => exact nofun
  cases outside with
  | false => rfl
  | true => exact under_cons_of_ne_text _ hbelow

/-- Open elements below a text. -/
def framesLowered (above : List Char) : List Frame → List Frame
  | [] => []
  | f :: fs => ⟨f.tag.lowered above, f.opening, levelLowered above fs.isEmpty f.before⟩ :: framesLowered above fs

theorem isEmpty_framesLowered (above : List Char) (fs : List Frame) :
    (framesLowered above fs).isEmpty = fs.isEmpty := by
  cases fs with
  | nil => rfl
  | cons f fs => rfl

namespace State

/-- What the reader has below a text where it has `s` alone: the text is pending up to the first node. -/
def lowered (above : List Char) (s : State) : State :=
  { frames := framesLowered above s.frames
    nodes := if s.nodes.isEmpty then [] else levelLowered above s.frames.isEmpty s.nodes
    pending := if s.frames.isEmpty && s.nodes.isEmpty then s.pending ++ above.reverse else s.pending
    place := s.place.lowered above
    rest := s.rest }

variable {t : State}

theorem flushed_lowered (habove : above ≠ []) (s : State) :
    (s.lowered above).flushed = levelLowered above s.frames.isEmpty s.flushed := by
  obtain ⟨frames, nodes, pending, place, rest⟩ := s
  unfold flushed lowered
  cases nodes with
  | nil =>
      cases frames with
      | nil =>
          cases pending with
          | nil => simp [habove, levelLowered, under, joinText, Node.allLowered]
          | cons c pending => simp [levelLowered, under, joinText, Node.allLowered, Node.lowered]
      | cons f frames =>
          cases pending with
          | nil => rfl
          | cons c pending => rfl
  | cons n nodes =>
      cases frames with
      | nil =>
          cases pending with
          | nil => rfl
          | cons c pending =>
              have hcons := @under_cons above (Node.allLowered above (n :: nodes)) (.text (c :: pending).reverse)
                (List.cons_ne_nil _ _)
              exact hcons.symm
      | cons f frames =>
          cases pending with
          | nil => rfl
          | cons c pending => rfl

theorem skip_lowered (above : List Char) (s : State) (n : Nat) :
    (s.lowered above).skip n = (s.skip n).lowered above := by
  unfold skip lowered
  rw [Place.after_lowered]

theorem takeProse_lowered (above : List Char) (s : State) (n : Nat) :
    (s.lowered above).takeProse n = (s.takeProse n).lowered above := by
  unfold takeProse
  rw [skip_lowered]
  unfold lowered skip
  dsimp only
  congr 1
  split
  · rw [List.append_assoc]
  · rfl

theorem takeNode_lowered (habove : above ≠ []) (s : State) (n : Nat) (node : Node)
    (hnode : ∀ value, node ≠ .text value) :
    (s.lowered above).takeNode n (node.lowered above) = (s.takeNode n node).lowered above := by
  unfold takeNode
  rw [flushed_lowered habove, skip_lowered, ← levelLowered_cons s.frames.isEmpty s.flushed hnode]
  unfold lowered skip
  simp

theorem takeOpening_lowered (habove : above ≠ []) (s : State) (n : Nat) (t : OpeningTag) :
    (s.lowered above).takeOpening n t = (s.takeOpening n t).lowered above := by
  unfold takeOpening
  dsimp only
  split
  · exact takeNode_lowered habove s n (.element { s.tagOf t with source := some ⟨s.rest.take n, none⟩ } [])
      (fun _ => nofun)
  · rw [flushed_lowered habove, skip_lowered]
    rfl

theorem takeClosing_lowered (habove : above ≠ []) (s : State) (n : Nat) (name : List Char) :
    (s.lowered above).takeClosing n name =
      ((s.takeClosing n name).map (lowered above)).mapError (Error.lowered above) := by
  unfold takeClosing
  cases hframes : s.frames with
  | nil =>
      have hlowered : (s.lowered above).frames = [] := by
        unfold lowered
        rw [hframes]
        rfl
      rw [hlowered]
      rfl
  | cons f fs =>
      have hlowered : (s.lowered above).frames =
          ⟨f.tag.lowered above, f.opening, levelLowered above fs.isEmpty f.before⟩ :: framesLowered above fs := by
        unfold lowered
        rw [hframes]
        rfl
      rw [hlowered]
      have hname : (f.tag.lowered above).name = f.tag.name := rfl
      dsimp only
      rw [hname]
      split
      · rfl
      · have hflushed : (s.lowered above).flushed.reverse = Node.allLowered above s.flushed.reverse := by
          rw [flushed_lowered habove, hframes, Node.allLowered_eq, List.map_reverse, ← Node.allLowered_eq]
          rfl
        have hcons := @levelLowered_cons above (closed f (s.rest.take n) s.flushed.reverse) fs.isEmpty f.before
          (fun _ => nofun)
        show Except.ok _ = Except.ok (lowered above _)
        rw [hflushed, skip_lowered]
        unfold lowered skip
        simp only [List.isEmpty_cons, Bool.and_false, Bool.false_eq_true, if_false]
        congr 2
        exact hcons.symm

/-- A step below a text is the step of the text alone, further down. -/
theorem step_lowered (habove : above ≠ []) (s : State) :
    (s.lowered above).step = (s.step.map (lowered above)).mapError (Error.lowered above) := by
  have hpiece : Piece.ofText (s.lowered above).frames.isEmpty (s.lowered above).place.startsLine (s.lowered above).rest =
      Piece.ofText s.frames.isEmpty s.place.startsLine s.rest :=
    congrArg (Piece.ofText · s.place.startsLine s.rest) (isEmpty_framesLowered above s.frames)
  unfold step
  rw [hpiece]
  cases Piece.ofText s.frames.isEmpty s.place.startsLine s.rest with
  | error f =>
      have hposition := Position.after_lowered above s.place.position (s.rest.take f.after)
      exact congrArg (fun p => Except.error (Error.mk f.cause p)) hposition
  | ok piece =>
      cases piece with
      | prose n => exact congrArg Except.ok (takeProse_lowered above s n)
      | script n => exact congrArg Except.ok (takeNode_lowered habove s n (.script _) (fun _ => nofun))
      | expression n => exact congrArg Except.ok (takeNode_lowered habove s n (.expression _ _) (fun _ => nofun))
      | opening t n => exact congrArg Except.ok (takeOpening_lowered habove s n t)
      | closing name n => exact takeClosing_lowered habove s n name

theorem finish_lowered (habove : above ≠ []) (s : State) :
    (s.lowered above).finish = (s.finish.map (Document.lowered above)).mapError (Error.lowered above) := by
  unfold finish
  rw [flushed_lowered habove]
  show (match framesLowered above s.frames with
    | [] => Except.ok (Document.mk _)
    | f :: _ => .error _) = _
  cases hframes : s.frames with
  | nil =>
      show Except.ok (Document.mk (under above _).reverse) = Except.ok (Document.lowered above _)
      rw [under, List.reverse_reverse, Node.allLowered_eq, ← List.map_reverse, ← Node.allLowered_eq]
      rfl
  | cons f fs => rfl

/-- A run below a text is the run of the text alone, further down. -/
theorem run_lowered (habove : above ≠ []) (bound : Nat) (s : State) : run bound (s.lowered above) =
    ((run bound s).map (Document.lowered above)).mapError (Error.lowered above) := by
  induction bound generalizing s with
  | zero => exact finish_lowered habove s
  | succ bound ih =>
      by_cases hrest : s.rest = []
      · rw [run_of_nil _ hrest, run_of_nil (s := s.lowered above) _ hrest, finish_lowered habove]
      · rw [run_succ _ hrest, run_succ (s := s.lowered above) _ hrest, step_lowered habove]
        cases s.step with
        | error e => rfl
        | ok t => exact ih t

end State

end Markup
end StoryDocs
