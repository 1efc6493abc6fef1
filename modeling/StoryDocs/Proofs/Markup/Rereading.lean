import StoryDocs.Proofs.Markup.InPlace

/-!
# Reading a document back

A document prints without the positions of its elements, without the text that their tags were read from once
they are written anew, and without the places where prose was cut.  `Document.plain` forgets the same, and a
document whose nodes are recognised in their place is read back from its text up to that.
-/

namespace StoryDocs
namespace Markup

/-! ## What the text tells -/

/-- Put prose in front of nodes; prose that they start with is joined to it. -/
def joinText (value : List Char) : List Node → List Node
  | .text next :: ns => .text (value ++ next) :: ns
  | ns => .text value :: ns

theorem joinText_append (u v : List Char) (ns : List Node) :
    joinText (u ++ v) ns = joinText u (joinText v ns) := by
  unfold joinText
  split
  · simp
  · rfl

mutual

/-- A node in front of plain ones, without what its text does not tell: positions, how the tags were
written, and where prose was cut. -/
def Node.plainOnto : Node → List Node → List Node
  | .text value, ns => joinText value ns
  | .script value, ns => .script value :: ns
  | .expression value _, ns => .expression value false :: ns
  | .element tag children, ns =>
    .element { name := tag.name, attributes := tag.attributes } (Node.plainAll children) :: ns

/-- Nodes without what their text does not tell. -/
def Node.plainAll : List Node → List Node
  | [] => []
  | n :: ns => n.plainOnto (Node.plainAll ns)

end

/-- A document without what its text does not tell. -/
def Document.plain (d : Document) : Document :=
  ⟨Node.plainAll d.children⟩

namespace Node

theorem plainAll_append (ns ms : List Node) :
    plainAll (ns ++ ms) = ns.foldr plainOnto (plainAll ms) := by
  induction ns with
  | nil => rfl
  | cons n ns ih => rw [List.cons_append, plainAll, ih, List.foldr_cons]

/-- Script blocks are told by the text. -/
theorem filterMap_script?_plainAll (ns : List Node) :
    (plainAll ns).filterMap script? = ns.filterMap script? := by
  induction ns with
  | nil => rfl
  | cons n ns ih =>
      rw [plainAll]
      cases n with
      | text value =>
          rw [plainOnto, List.filterMap_cons_none rfl, ← ih]
          unfold joinText
          split
          · rename_i heq
            rw [heq]
            rfl
          · rfl
      | script value => simp [plainOnto, script?, ih]
      | expression value flow =>
          rw [plainOnto, List.filterMap_cons_none rfl, List.filterMap_cons_none rfl, ih]
      | element tag children =>
          rw [plainOnto, List.filterMap_cons_none rfl, List.filterMap_cons_none rfl, ih]

/-- Two rows of nodes tell the same, whatever stands behind them. -/
def TellSame (ns ms : List Node) : Prop :=
  ∀ behind, plainAll (ns ++ behind) = plainAll (ms ++ behind)

namespace TellSame

variable {ns ms ks : List Node}

theorem refl (ns : List Node) : TellSame ns ns :=
  fun _ => rfl

theorem trans (h : TellSame ns ms) (hnext : TellSame ms ks) : TellSame ns ks :=
  fun behind => (h behind).trans (hnext behind)

theorem append (h : TellSame ns ms) (ks : List Node) : TellSame (ns ++ ks) (ms ++ ks) := by
  intro behind
  rw [List.append_assoc, List.append_assoc, h]

/-- Nodes behind the same ones. -/
theorem behind (ks : List Node) (h : TellSame ns ms) : TellSame (ks ++ ns) (ks ++ ms) := by
  intro behind
  rw [List.append_assoc, List.append_assoc, plainAll_append, plainAll_append ks, h]

/-- Prose can be cut in two. -/
theorem cut (u v : List Char) : TellSame [.text (u ++ v)] [.text u, .text v] := by
  intro behind
  simp only [List.cons_append, List.nil_append, plainAll, plainOnto, joinText_append]

theorem expression (value : List Char) (flow flow' : Bool) :
    TellSame [.expression value flow] [.expression value flow'] :=
  fun _ => rfl

theorem element {tag tag' : Tag} (hname : tag.name = tag'.name)
    (hattributes : tag.attributes = tag'.attributes) (h : TellSame ns ms) :
    TellSame [.element tag ns] [.element tag' ms] := by
  intro behind
  have hchildren := h []
  rw [List.append_nil, List.append_nil] at hchildren
  simp only [List.cons_append, List.nil_append, plainAll, plainOnto, hname, hattributes, hchildren]

end TellSame

end Node

theorem Document.scripts_eq_of_plain {d e : Document} (h : d.plain = e.plain) :
    d.scripts = e.scripts := by
  have hchildren : Node.plainAll d.children = Node.plainAll e.children := congrArg Document.children h
  rw [Document.scripts, Document.scripts, ← Node.filterMap_script?_plainAll, hchildren,
    Node.filterMap_script?_plainAll]

/-! ## Reading nodes that are in their place -/

namespace State

variable {s t u : State} {outside line : Bool} {text rest : List Char} {ns ms : List Node}

/-- The reader stands before a text. -/
structure Stands (s : State) (outside line : Bool) (text : List Char) : Prop where
  outside : s.frames.isEmpty = outside
  line : s.place.startsLine = line
  column : 0 < s.place.position.column
  rest : s.rest = text

theorem Stands.start (source : List Char) : Stands { rest := source } true true source :=
  ⟨rfl, rfl, Nat.one_pos, rfl⟩

/-- The reader gets from `s` to `t` over some nodes. -/
structure Reaches (s : State) (nodes : List Node) (t : State) : Prop where
  steps : Relation.ReflTransGen Step s t
  frames : t.frames = s.frames
  rest : s.rest = Node.printAll nodes ++ t.rest
  place : t.place = s.place.after (Node.printAll nodes)
  nodes : Node.TellSame t.flushed.reverse (s.flushed.reverse ++ nodes)

namespace Reaches

theorem refl (s : State) : s.Reaches [] s :=
  ⟨.refl, rfl, rfl, rfl, by rw [List.append_nil]; exact .refl _⟩

theorem trans (h : s.Reaches ns t) (hnext : t.Reaches ms u) : s.Reaches (ns ++ ms) u where
  steps := h.steps.trans hnext.steps
  frames := hnext.frames.trans h.frames
  rest := by rw [h.rest, hnext.rest, Node.printAll_append, List.append_assoc]
  place := by rw [hnext.place, h.place, Node.printAll_append, Place.after, Place.after, Place.after,
    List.foldl_append]
  nodes := by
    rw [← List.append_assoc]
    exact hnext.nodes.trans (h.nodes.append ms)

theorem stands (h : s.Reaches ns t) (hs : s.Stands outside line (Node.printAll ns ++ rest)) :
    t.Stands outside (lineAfter line (Node.printAll ns)) rest where
  outside := by rw [h.frames, hs.outside]
  line := by rw [h.place, (startsLine_after hs.column _).1, hs.line]
  column := by rw [h.place]; exact (startsLine_after hs.column _).2
  rest := List.append_cancel_left (h.rest.symm.trans hs.rest)

/-- Read on behind a node. -/
theorem cons {node : Node} {line' : Bool} (h : s.Reaches [node] t)
    (hs : s.Stands outside line (Node.printAll (node :: ns) ++ rest))
    (hline : lineAfter line node.print = line')
    (hnext : ∀ {t : State}, t.Stands outside line' (Node.printAll ns ++ rest) → ∃ u, t.Reaches ns u) :
    ∃ u, s.Reaches (node :: ns) u := by
  have ht : t.Stands outside line' (Node.printAll ns ++ rest) := by
    rw [← hline]
    have hstands : t.Stands outside _ (Node.printAll ns ++ rest) := h.stands (by simpa using hs)
    simpa using hstands
  obtain ⟨u, hu⟩ := hnext ht
  exact ⟨u, h.trans hu⟩

/-- One step over a node. -/
theorem takeNode {node found : Node} {n : Nat} (hsame : Node.TellSame [found] [node])
    (hne : s.rest ≠ []) (htaken : s.rest.take n = node.print)
    (hstep : s.step = .ok (s.takeNode n found)) : s.Reaches [node] (s.takeNode n found) where
  steps := .single ⟨hne, hstep⟩
  frames := rfl
  rest := by
    have hboth := List.take_append_drop n s.rest
    rw [htaken] at hboth
    simpa [State.takeNode, skip] using hboth.symm
  place := by simp [State.takeNode, skip, htaken]
  nodes := by
    simp only [State.takeNode, flushed, List.isEmpty_nil, if_true, List.reverse_cons]
    exact hsame.behind _

end Reaches

/-! ### Prose -/

theorem takeProse_add (s : State) (m n : Nat) :
    (s.takeProse m).takeProse n = s.takeProse (m + n) := by
  simp only [takeProse, skip, Place.after, List.take_add, List.foldl_append, List.reverse_append,
    List.append_assoc, List.drop_drop]

/-- Prose is taken off the text piece by piece. -/
theorem steps_takeProse (h : Prose outside line text rest) (hs : s.Stands outside line (text ++ rest)) :
    Relation.ReflTransGen Step s (s.takeProse text.length) := by
  induction h generalizing s with
  | nil line rest => exact .refl
  | @cons line u v whole rest hu hpiece _ hwhole ih =>
      subst hwhole
      rw [List.append_assoc] at hs
      have hstep : Step s (s.takeProse u.length) := by
        refine ⟨by simp [hs.rest, hu], ?_⟩
        rw [step, hs.outside, hs.line, hs.rest, hpiece]
      have htaken : s.rest.take u.length = u := by rw [hs.rest, List.take_left]
      have hnext : (s.takeProse u.length).Stands outside (lineAfter line u) (v ++ rest) := by
        refine ⟨hs.outside, ?_, ?_, ?_⟩
        · show (s.place.after (s.rest.take u.length)).startsLine = _
          rw [htaken, (startsLine_after hs.column u).1, hs.line]
        · exact (startsLine_after hs.column _).2
        · show s.rest.drop u.length = _
          rw [hs.rest, List.drop_left]
      have hsteps := ih hnext
      rw [takeProse_add, ← List.length_append] at hsteps
      exact .head hstep hsteps

theorem reaches_prose (hne : text ≠ []) (h : Prose outside line text rest)
    (hs : s.Stands outside line (text ++ rest)) :
    s.Reaches [.text text] (s.takeProse text.length) where
  steps := steps_takeProse h hs
  frames := rfl
  rest := by simp [takeProse, skip, hs.rest, Node.print]
  place := by simp [takeProse, skip, hs.rest, Node.print]
  nodes := by
    have htaken : s.rest.take text.length = text := by rw [hs.rest, List.take_left]
    unfold flushed
    by_cases hpending : s.pending = []
    · simp only [takeProse, skip, htaken, hpending]
      simp [hne]
      exact .refl _
    · simp only [takeProse, skip, htaken]
      simp [hne, hpending]
      exact .behind _ (.cut _ _)

/-! ### Elements -/

/-- An opening tag in its place is taken. -/
theorem step_opening {tag : OpeningTag} {opening : List Char}
    (hopening : Tagged (.opening tag) opening rest) (hs : s.Stands outside line (opening ++ rest)) :
    Step s (s.takeOpening opening.length tag) := by
  obtain ⟨body, hbody⟩ := List.head?_eq_some_iff.mp hopening.bracket
  refine ⟨by simp [hs.rest, hbody], ?_⟩
  rw [step, hs.rest, hopening.ofText]

/-- A closing tag in its place closes the innermost open element. -/
theorem step_closing {f : Frame} {fs : List Frame} {closing : List Char} (hframes : s.frames = f :: fs)
    (hclosing : Tagged (.closing f.tag.name) closing rest)
    (hs : s.Stands outside line (closing ++ rest)) :
    Step s { s.skip closing.length with
      frames := fs
      nodes := closed f closing s.flushed.reverse :: f.before
      pending := [] } := by
  obtain ⟨body, hbody⟩ := List.head?_eq_some_iff.mp hclosing.bracket
  have htaken : s.rest.take closing.length = closing := by rw [hs.rest, List.take_left]
  refine ⟨by simp [hs.rest, hbody], ?_⟩
  rw [step, hs.rest, hclosing.ofText]
  simp only [takeClosing, hframes, bne_self_eq_false, Bool.false_eq_true, if_false, htaken]
  rfl

theorem reaches_childless {tag : Tag}
    (hopening : Tagged (.opening ⟨tag.name, ⟨tag.attributes, true⟩⟩) (Node.print (.element tag [])) rest)
    (hs : s.Stands outside line (Node.print (.element tag []) ++ rest)) :
    ∃ t, s.Reaches [.element tag []] t := by
  obtain ⟨hne, hstep⟩ := step_opening hopening hs
  refine ⟨_, .takeNode ?_ hne ?_ hstep⟩
  · exact .element rfl rfl (.refl [])
  · rw [hs.rest, List.take_left]

theorem reaches_enclosing {tag : Tag} {children : List Node} {opening closing : List Char}
    (hprint : Node.print (.element tag children) = opening ++ Node.printAll children ++ closing)
    (hopening : Tagged (.opening ⟨tag.name, ⟨tag.attributes, false⟩⟩) opening
      (Node.printAll children ++ (closing ++ rest)))
    (hclosing : Tagged (.closing tag.name) closing rest)
    (hs : s.Stands outside line (Node.print (.element tag children) ++ rest))
    (hchildren : ∀ {t : State}, t.Stands false false (Node.printAll children ++ (closing ++ rest)) →
      ∃ u, t.Reaches children u) :
    ∃ t, s.Reaches [.element tag children] t := by
  have hsplit : Node.print (.element tag children) ++ rest =
      opening ++ (Node.printAll children ++ (closing ++ rest)) := by
    rw [hprint]
    simp
  rw [hsplit] at hs
  have htaken : s.rest.take opening.length = opening := by rw [hs.rest, List.take_left]
  have hdropped : s.rest.drop opening.length = Node.printAll children ++ (closing ++ rest) := by
    rw [hs.rest, List.drop_left]
  -- First the opening tag is read, then the children inside it, then the closing tag.
  obtain ⟨frame, inside, hframe, hname, hattributes, hopen, hframes, hnodes, hinside, hplace⟩ :
      ∃ (frame : Frame) (inside : State), frame.before = s.flushed ∧ frame.tag.name = tag.name ∧
        frame.tag.attributes = tag.attributes ∧ Step s inside ∧ inside.frames = frame :: s.frames ∧
        inside.flushed = [] ∧ inside.rest = Node.printAll children ++ (closing ++ rest) ∧
        inside.place = s.place.after opening :=
    ⟨_, _, rfl, rfl, rfl, step_opening hopening hs, rfl, rfl, hdropped, congrArg s.place.after htaken⟩
  have hline := startsLine_after hs.column opening
  rw [lineAfter_of_bracket hopening.opening_getLast?, ← hplace] at hline
  have hstands : inside.Stands false false (Node.printAll children ++ (closing ++ rest)) :=
    ⟨by rw [hframes]; rfl, hline.1, hline.2, hinside⟩
  obtain ⟨last, hlast⟩ := hchildren hstands
  have hend := hlast.stands hstands
  have hclose := step_closing (hlast.frames.trans hframes) (by rw [hname]; exact hclosing) hend
  have hbehind : last.rest.drop closing.length = rest := by rw [hend.rest, List.drop_left]
  refine ⟨_, .head hopen (hlast.steps.tail hclose), rfl, ?_, ?_, ?_⟩
  · rw [Node.printAll_cons, Node.printAll_nil, List.append_nil, hs.rest, ← hsplit]
    exact congrArg _ hbehind.symm
  · rw [Node.printAll_cons, Node.printAll_nil, List.append_nil, hprint]
    show last.place.after (last.rest.take closing.length) = _
    rw [hend.rest, List.take_left, hlast.place, hplace]
    simp [Place.after]
  · show Node.TellSame (closed frame closing last.flushed.reverse :: frame.before).reverse _
    rw [List.reverse_cons, hframe]
    refine .behind _ (.element hname hattributes ?_)
    have hnodes' := hlast.nodes
    rwa [hnodes] at hnodes'

end State

/-- Nodes in their place are read. -/
theorem Reads.reaches {outside line : Bool} {nodes : List Node} {rest : List Char}
    (h : Reads outside line nodes rest) {s : State}
    (hs : s.Stands outside line (Node.printAll nodes ++ rest)) : ∃ t, s.Reaches nodes t := by
  -- One node is read by the move it stands for, the others from where that move ends.
  induction h generalizing s with
  | nil outside line rest => exact ⟨s, .refl s⟩
  | @text outside line value rest ns hne hprose _ ih =>
      refine (State.reaches_prose hne hprose ?_).cons hs (by rw [Node.print]) ih
      simpa [Node.print] using hs
  | @script value rest ns hstart htaken _ ih =>
      have hrest : s.rest = value ++ (Node.printAll ns ++ rest) := by
        rw [hs.rest, Node.printAll_cons, Node.print, List.append_assoc]
      rw [← hrest] at hstart htaken
      have hne : s.rest ≠ [] := by
        intro hnil
        rw [hnil] at hstart
        cases hstart
      refine (State.Reaches.takeNode (.refl _) hne htaken ?_).cons hs (by rw [Node.print]) ih
      rw [State.step, hs.outside, hs.line, Piece.ofText, if_pos (by simpa using hstart)]
      simp only [htaken]
  | @expression outside line flow value rest ns hgroup _ ih =>
      have hrest : s.rest = '\x7b' :: value ++ '\x7d' :: (Node.printAll ns ++ rest) := by
        simp [hs.rest, Node.print]
      rw [← hrest] at hgroup
      have htaken : s.rest.take (value.length + 2) = '\x7b' :: value ++ ['\x7d'] := by
        have hsize : ('\x7b' :: value ++ ['\x7d']).length = value.length + 2 := by simp
        rw [hrest, ← hsize]
        simpa using @List.take_left _ ('\x7b' :: value ++ ['\x7d']) (Node.printAll ns ++ rest)
      have hvalue : (s.rest.drop 1).take (value.length + 2 - 2) = value := by
        rw [hrest]
        simp
      refine (State.Reaches.takeNode (.expression value s.place.indented flow) (by simp [hrest])
        htaken ?_).cons hs (by rw [Node.print, lineAfter_concat]; rfl) ih
      rw [hrest, List.cons_append] at hgroup
      rw [State.step, hrest, List.cons_append, Piece.ofText_brace hgroup, ← List.cons_append, ← hrest]
      simp only [hvalue]
  | @childless outside line tag rest ns _ hopening _ ih =>
      obtain ⟨t, ht⟩ := State.reaches_childless hopening (by simpa using hs)
      exact ht.cons hs (lineAfter_of_bracket hopening.opening_getLast? _) ih
  | @enclosing outside line tag children opening closing rest ns _ hprint hopening _ hclosing _ ihc ih =>
      obtain ⟨t, ht⟩ := State.reaches_enclosing hprint hopening hclosing (by simpa using hs) ihc
      refine ht.cons hs (lineAfter_of_bracket ?_ _) ih
      rw [hprint, List.getLast?_append, hclosing.closing_getLast?]
      rfl

/-- A document whose nodes are in their place is read back from its text. -/
theorem Reads.parse {d : Document} (h : Reads true true d.children []) :
    ∃ e, Markup.parse d.print = .ok e ∧ e.plain = d.plain := by
  have hstands : State.Stands { rest := d.print } true true (Node.printAll d.children ++ []) := by
    rw [List.append_nil]
    exact .start d.print
  obtain ⟨last, hlast⟩ := h.reaches hstands
  have hend := hlast.stands hstands
  refine ⟨⟨last.flushed.reverse⟩, ?_, ?_⟩
  · refine (State.run_eq_ok_iff (s := { rest := d.print }) (Nat.le_refl _)).mpr
      ⟨last, hlast.steps, hend.rest, ?_⟩
    rw [State.finish, hlast.frames]
  · have hsame := hlast.nodes []
    rw [List.append_nil, List.append_nil] at hsame
    exact congrArg Document.mk hsame

end Markup
end StoryDocs
