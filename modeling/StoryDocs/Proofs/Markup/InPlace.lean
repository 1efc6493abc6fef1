import Mathlib.Logic.Relation
import StoryDocs.Proofs.Markup.Lossless
import StoryDocs.Proofs.Markup.Recognition

/-!
# Nodes in their place

`Reads outside line nodes rest` says of nodes, one after the other, that the reader recognises their text
where `rest` comes behind them.  It holds of the nodes of every document that was read.
-/

namespace StoryDocs
namespace Markup

open Text

/-! ## Tags in their place -/

/-- The text of a tag is read as `piece`, where `rest` comes behind it. -/
structure Tagged (piece : Nat → Piece) (text rest : List Char) : Prop where
  bracket : text.head? = some '<'
  read : Piece.ofBracket (text ++ rest) = .ok (piece text.length)

namespace Tagged

variable {text rest : List Char}

theorem ofText {piece : Nat → Piece} (h : Tagged piece text rest) (outside line : Bool) :
    Piece.ofText outside line (text ++ rest) = .ok (piece text.length) := by
  obtain ⟨s, hs⟩ := List.head?_eq_some_iff.mp h.bracket
  have hread := h.read
  rw [hs] at hread ⊢
  rw [List.cons_append, Piece.ofText_bracket]
  exact hread

theorem starts {piece : Nat → Piece} (h : Tagged piece text rest) :
    Piece.Starts false false (text ++ rest) (piece text.length) := by
  have hread := h.read
  obtain ⟨s, hs⟩ := List.head?_eq_some_iff.mp h.bracket
  rw [hs] at hread ⊢
  exact Piece.ofBracket_starts hread

theorem readOpening {tag : OpeningTag} (h : Tagged (.opening tag) text rest) :
    readOpeningTag (text ++ rest) = .ok ⟨tag, text.length⟩ := by
  have hstarts := h.starts
  generalize text ++ rest = whole at hstarts ⊢
  cases hstarts with
  | opening hread => exact hread

theorem readClosing {name : List Char} (h : Tagged (.closing name) text rest) :
    readClosingTag (text ++ rest) = .ok ⟨name, text.length⟩ := by
  have hstarts := h.starts
  generalize text ++ rest = whole at hstarts ⊢
  cases hstarts with
  | closing hread => exact hread

/-- A text that is taken up to a character ends with it. -/
theorem getLast?_of_closes {last : Char} (h : Closes last text.length (text ++ rest)) :
    text.getLast? = some last := by
  obtain ⟨body, htake, _⟩ := h.take_eq
  rw [List.take_left] at htake
  rw [htake, List.getLast?_concat]

theorem opening_getLast? {tag : OpeningTag} (h : Tagged (.opening tag) text rest) :
    text.getLast? = some '>' :=
  getLast?_of_closes (readOpeningTag_closes h.readOpening)

theorem closing_getLast? {name : List Char} (h : Tagged (.closing name) text rest) :
    text.getLast? = some '>' :=
  getLast?_of_closes (readClosingTag_closes h.readClosing)

end Tagged

theorem lineAfter_of_bracket {text : List Char} (h : text.getLast? = some '>') (line : Bool) :
    lineAfter line text = false := by
  obtain ⟨body, rfl⟩ := List.getLast?_eq_some_iff.mp h
  simp

/-! ## Nodes in their place -/

/-- The reader recognises nodes where `rest` comes behind them.  `outside` tells whether they stand outside
all elements, and `line` whether a line starts before them. -/
inductive Reads : Bool → Bool → List Node → List Char → Prop
  | nil (outside line : Bool) (rest : List Char) : Reads outside line [] rest
  | text {outside line : Bool} {value rest : List Char} {ns : List Node} (hne : value ≠ [])
      (hprose : Prose outside line value (Node.printAll ns ++ rest))
      (hrest : Reads outside (lineAfter line value) ns rest) :
      Reads outside line (.text value :: ns) rest
  | script {value rest : List Char} {ns : List Node}
      (hstart : startsScript (value ++ (Node.printAll ns ++ rest)) = true)
      (htaken : (value ++ (Node.printAll ns ++ rest)).take
        (scriptLength (value ++ (Node.printAll ns ++ rest))) = value)
      (hrest : Reads true (lineAfter true value) ns rest) : Reads true true (.script value :: ns) rest
  | expression {outside line flow : Bool} {value rest : List Char} {ns : List Node}
      (hgroup : groupLength? ('\x7b' :: value ++ '\x7d' :: (Node.printAll ns ++ rest)) =
        some (value.length + 2))
      (hrest : Reads outside false ns rest) : Reads outside line (.expression value flow :: ns) rest
  | childless {outside line : Bool} {tag : Tag} {rest : List Char} {ns : List Node}
      (hsource : ∀ source, tag.source = some source → source = ⟨Node.print (.element tag []), none⟩)
      (hopening : Tagged (.opening ⟨tag.name, ⟨tag.attributes, true⟩⟩) (Node.print (.element tag []))
        (Node.printAll ns ++ rest))
      (hrest : Reads outside false ns rest) : Reads outside line (.element tag [] :: ns) rest
  | enclosing {outside line : Bool} {tag : Tag} {children : List Node} {opening closing rest : List Char}
      {ns : List Node} (hsource : ∀ source, tag.source = some source → source = ⟨opening, some closing⟩)
      (hprint : Node.print (.element tag children) = opening ++ Node.printAll children ++ closing)
      (hopening : Tagged (.opening ⟨tag.name, ⟨tag.attributes, false⟩⟩) opening
        (Node.printAll children ++ (closing ++ (Node.printAll ns ++ rest))))
      (hchildren : Reads false false children (closing ++ (Node.printAll ns ++ rest)))
      (hclosing : Tagged (.closing tag.name) closing (Node.printAll ns ++ rest))
      (hrest : Reads outside false ns rest) : Reads outside line (.element tag children :: ns) rest

namespace Reads

variable {outside line : Bool} {ns ms : List Node} {rest : List Char}

theorem append (h : Reads outside line ns (Node.printAll ms ++ rest))
    (hms : Reads outside (lineAfter line (Node.printAll ns)) ms rest) :
    Reads outside line (ns ++ ms) rest := by
  -- What stands behind the nodes is an index of the relation, so it is made a variable for the induction.
  generalize hbehind : Node.printAll ms ++ rest = behind at h
  induction h with
  | nil outside line _ => simpa using hms
  | @text outside line value behind ns hne hprose _ ih =>
      subst hbehind
      rw [Node.printAll_cons, Node.print, lineAfter_append] at hms
      exact .text hne (by simpa using hprose) (ih hms rfl)
  | @script value behind ns hstart htaken _ ih =>
      subst hbehind
      rw [Node.printAll_cons, Node.print, lineAfter_append] at hms
      have hassoc : Node.printAll (ns ++ ms) ++ rest = Node.printAll ns ++ (Node.printAll ms ++ rest) := by
        simp
      rw [List.cons_append]
      refine .script ?_ ?_ (ih hms rfl)
      · rwa [hassoc]
      · rwa [hassoc]
  | @expression outside line flow value behind ns hgroup _ ih =>
      subst hbehind
      rw [Node.printAll_cons, Node.print, lineAfter_append, lineAfter_concat] at hms
      exact .expression (by simpa using hgroup) (ih hms rfl)
  | @childless outside line tag behind ns hsource hopening _ ih =>
      subst hbehind
      rw [Node.printAll_cons, lineAfter_append, lineAfter_of_bracket hopening.opening_getLast?] at hms
      exact .childless hsource (by simpa using hopening) (ih hms rfl)
  | @enclosing outside line tag children opening closing behind ns hsource hprint hopening hchildren
      hclosing _ _ ih =>
      subst hbehind
      have hlast : (Node.print (.element tag children)).getLast? = some '>' := by
        rw [hprint, List.getLast?_append, hclosing.closing_getLast?]
        rfl
      rw [Node.printAll_cons, lineAfter_append, lineAfter_of_bracket hlast] at hms
      refine .enclosing hsource hprint (by simpa using hopening) (by simpa using hchildren)
        (by simpa using hclosing) (ih hms rfl)

end Reads

/-! ## Steps -/

namespace State

variable {s t : State}

/-- One step of the reader. -/
def Step (s t : State) : Prop :=
  s.rest ≠ [] ∧ s.step = .ok t

/-- There is no step at the end of the text. -/
theorem finish_eq_ok_iff {d : Document} (hrest : s.rest = []) :
    s.finish = .ok d ↔
      ∃ last, Relation.ReflTransGen Step s last ∧ last.rest = [] ∧ last.finish = .ok d := by
  constructor
  · exact fun h => ⟨s, .refl, hrest, h⟩
  · rintro ⟨last, hsteps, _, hfinish⟩
    rcases hsteps.cases_head with rfl | ⟨t, hstep, _⟩
    · exact hfinish
    · exact absurd hrest hstep.1

/-- A run goes on behind the steps that it starts with. -/
theorem run_of_steps (h : Relation.ReflTransGen Step s t) :
    run s.rest.length s = run t.rest.length t := by
  induction h using Relation.ReflTransGen.head_induction_on with
  | refl => rfl
  | @head s u hstep _ ih =>
      obtain ⟨hrest, hstep⟩ := hstep
      have hlt := (step_move hrest hstep).length_lt hrest
      have hpos := List.length_pos_iff.mpr hrest
      obtain ⟨k, hk⟩ := Nat.exists_eq_add_one_of_ne_zero (by omega : s.rest.length ≠ 0)
      rw [hk, run_succ k hrest, hstep, ← ih]
      exact run_eq_run (by omega) (Nat.le_refl _)

/-- A run is a row of steps up to the end of the text. -/
theorem run_eq_ok_iff {bound : Nat} {d : Document} (hbound : s.rest.length ≤ bound) :
    run bound s = .ok d ↔
      ∃ last, Relation.ReflTransGen Step s last ∧ last.rest = [] ∧ last.finish = .ok d := by
  induction bound generalizing s with
  | zero => exact finish_eq_ok_iff (List.length_eq_zero_iff.mp (by omega))
  | succ bound ih =>
      unfold run
      by_cases hrest : s.rest = []
      · rw [if_pos (by rw [hrest]; rfl)]
        exact finish_eq_ok_iff hrest
      · rw [if_neg (by simpa using hrest)]
        cases hstep : s.step with
        | error e =>
            constructor
            · intro h
              cases h
            · rintro ⟨last, hsteps, hend, _⟩
              rcases hsteps.cases_head with rfl | ⟨t, hstep', _⟩
              · exact absurd hend hrest
              · rw [Step, hstep] at hstep'
                cases hstep'.2
        | ok t =>
            have hlt := (step_move hrest hstep).length_lt hrest
            rw [ih (by omega)]
            constructor
            · rintro ⟨last, hsteps, hend, hfinish⟩
              exact ⟨last, .head ⟨hrest, hstep⟩ hsteps, hend, hfinish⟩
            · rintro ⟨last, hsteps, hend, hfinish⟩
              rcases hsteps.cases_head with rfl | ⟨t', hstep', hsteps⟩
              · exact absurd hend hrest
              · rw [Step, hstep] at hstep'
                cases hstep'.2
                exact ⟨last, hsteps, hend, hfinish⟩

/-- A place behind a text starts a line as the text tells; columns count from one. -/
theorem startsLine_after {p : Place} (h : 0 < p.position.column) (text : List Char) :
    (p.after text).startsLine = lineAfter p.startsLine text ∧ 0 < (p.after text).position.column := by
  induction text generalizing p with
  | nil => exact ⟨rfl, h⟩
  | cons c text ih =>
      have hcolumn : 0 < (p.advance c).position.column := by
        rw [Place.advance, Position.advance]
        split
        · exact Nat.one_pos
        · exact Nat.succ_pos _
      have hline : (p.advance c).startsLine = (c == '\n') := by
        rw [Place.startsLine, Place.advance, Position.advance]
        split
        · rename_i hc
          rw [hc]
          rfl
        · rename_i hc
          have hne : p.position.column ≠ 0 := by omega
          have hfeed : (c == '\n') = false := by simpa using hc
          simp [hne, hfeed]
      obtain ⟨hafter, hpos⟩ := ih hcolumn
      refine ⟨?_, hpos⟩
      rw [Place.after, List.foldl_cons]
      exact hafter.trans (by rw [hline]; rfl)

/-! ## What was read is in its place -/

/-- The open elements were read where `rest` comes behind the innermost opening tag. -/
def FramesRead : List Frame → List Char → Prop
  | [], _ => True
  | f :: fs, rest =>
    Reads fs.isEmpty fs.isEmpty f.before.reverse (f.opening ++ rest) ∧
      Tagged (.opening ⟨f.tag.name, ⟨f.tag.attributes, false⟩⟩) f.opening rest ∧
      FramesRead fs (Node.printAll f.before.reverse ++ (f.opening ++ rest))

/-- All that was read so far is in its place. -/
structure InPlace (s : State) : Prop where
  frames : FramesRead s.frames (Node.printAll s.nodes.reverse ++ (s.pending.reverse ++ s.rest))
  nodes : Reads s.frames.isEmpty s.frames.isEmpty s.nodes.reverse (s.pending.reverse ++ s.rest)
  prose : Prose s.frames.isEmpty (lineAfter s.frames.isEmpty (Node.printAll s.nodes.reverse))
    s.pending.reverse s.rest
  line : s.place.startsLine =
    lineAfter s.frames.isEmpty (Node.printAll s.nodes.reverse ++ s.pending.reverse)
  column : 0 < s.place.position.column

namespace InPlace

theorem start (source : List Char) : InPlace { rest := source } where
  frames := trivial
  nodes := .nil _ _ _
  prose := .nil _ _
  line := rfl
  column := Nat.one_pos

theorem flushed (h : s.InPlace) : Reads s.frames.isEmpty s.frames.isEmpty s.flushed.reverse s.rest := by
  unfold State.flushed
  split
  · rename_i hempty
    have hnodes := h.nodes
    rwa [List.isEmpty_iff.mp hempty] at hnodes
  · rename_i hempty
    have hne : s.pending.reverse ≠ [] := by simpa using hempty
    rw [List.reverse_cons]
    refine Reads.append (by simpa [Node.print] using h.nodes) ?_
    exact .text hne (by simpa using h.prose) (.nil _ _ _)

/-- A node is read behind what was read before. -/
theorem takeNode (h : s.InPlace) {node : Node} {n : Nat} (hprint : node.print = s.rest.take n)
    (hnode : Reads s.frames.isEmpty s.place.startsLine [node] (s.rest.drop n)) :
    (s.takeNode n node).InPlace := by
  have hflushed := printAll_flushed s
  have hplace := startsLine_after h.column (s.rest.take n)
  have hline : lineAfter s.frames.isEmpty (Node.printAll s.flushed.reverse) = s.place.startsLine := by
    rw [hflushed, h.line]
  refine ⟨?_, ?_, .nil _ _, ?_, hplace.2⟩
  · have hframes := h.frames
    simp only [State.takeNode, skip, List.reverse_cons, Node.printAll_append, Node.printAll_cons,
      Node.printAll_nil, hflushed, hprint]
    simpa using hframes
  · show Reads s.frames.isEmpty s.frames.isEmpty (node :: s.flushed).reverse ([] ++ s.rest.drop n)
    rw [List.reverse_cons]
    refine Reads.append ?_ (by rw [hline]; exact hnode)
    have hbefore := h.flushed
    simpa [hprint] using hbefore
  · show (s.place.after (s.rest.take n)).startsLine =
      lineAfter s.frames.isEmpty (Node.printAll (node :: s.flushed).reverse ++ [])
    rw [hplace.1, List.append_nil, List.reverse_cons, Node.printAll_append, lineAfter_append, hline]
    simp [hprint]

theorem takeProse (h : s.InPlace) (hrest : s.rest ≠ []) {n : Nat}
    (hpiece : Piece.ofText s.frames.isEmpty s.place.startsLine s.rest = .ok (.prose n)) :
    (s.takeProse n).InPlace := by
  have hpos : 0 < n := by
    obtain ⟨c, text, hcons⟩ := List.exists_cons_of_ne_nil hrest
    rw [hcons] at hpiece
    cases Piece.ofText_starts hpiece with
    | prose hpos => exact hpos
  have hle := (Piece.ofText_ends hpiece hrest).le
  have hlength : (s.rest.take n).length = n := by
    rw [List.length_take]
    omega
  have hplace := startsLine_after h.column (s.rest.take n)
  have htext : (s.takeProse n).pending.reverse ++ (s.takeProse n).rest = s.pending.reverse ++ s.rest := by
    simp [State.takeProse, skip]
  refine ⟨?_, ?_, ?_, ?_, hplace.2⟩
  · rw [htext]
    exact h.frames
  · rw [htext]
    exact h.nodes
  · show Prose s.frames.isEmpty (lineAfter s.frames.isEmpty (Node.printAll s.nodes.reverse))
      ((s.rest.take n).reverse ++ s.pending).reverse (s.rest.drop n)
    rw [List.reverse_append, List.reverse_reverse]
    refine Prose.append (by rw [List.take_append_drop]; exact h.prose) ?_
    rw [← lineAfter_append, ← h.line]
    refine .cons (by simp [hrest]; omega) ?_ (.nil _ _) (List.append_nil _).symm
    rw [List.nil_append, List.take_append_drop, hlength]
    exact hpiece
  · show (s.place.after (s.rest.take n)).startsLine = lineAfter s.frames.isEmpty
      (Node.printAll s.nodes.reverse ++ ((s.rest.take n).reverse ++ s.pending).reverse)
    rw [hplace.1, h.line, List.reverse_append, List.reverse_reverse, ← List.append_assoc,
      lineAfter_append _ _ (s.rest.take n)]

/-- A tag that was found is one in its place. -/
theorem tagged {piece : Nat → Piece} {n : Nat} (hhead : s.rest.head? = some '<')
    (hcloses : Closes '>' n s.rest)
    (hpiece : Piece.ofText s.frames.isEmpty s.place.startsLine s.rest = .ok (piece n)) :
    Tagged piece (s.rest.take n) (s.rest.drop n) := by
  have hlength : (s.rest.take n).length = n := by
    obtain ⟨body, rest, hsplit, hn⟩ := hcloses
    rw [List.length_take, hsplit, hn]
    simp
  refine ⟨?_, ?_⟩
  · have hpos := hcloses.pos
    rw [List.head?_take, if_neg (by omega), hhead]
  · obtain ⟨text, htext⟩ := List.head?_eq_some_iff.mp hhead
    rw [List.take_append_drop, hlength]
    rw [htext] at hpiece ⊢
    rwa [Piece.ofText_bracket] at hpiece

/-- Opening an element. -/
theorem opened (h : s.InPlace) {n : Nat} {tag : OpeningTag} (hself : tag.tagEnd.selfClosing = false)
    (htagged : Tagged (.opening tag) (s.rest.take n) (s.rest.drop n)) :
    InPlace { s.skip n with
      frames := ⟨s.tagOf tag, s.rest.take n, s.flushed⟩ :: s.frames
      nodes := []
      pending := [] } := by
  have hplace := startsLine_after h.column (s.rest.take n)
  refine ⟨⟨?_, ?_, ?_⟩, .nil _ _ _, .nil _ _, ?_, hplace.2⟩
  · simpa [skip] using h.flushed
  · have htag : tag = ⟨tag.name, ⟨tag.tagEnd.attributes, false⟩⟩ := by
      rw [← hself]
    rw [htag] at htagged
    simpa [skip, tagOf] using htagged
  · have hframes := h.frames
    simpa [skip, printAll_flushed] using hframes
  · show (s.place.after (s.rest.take n)).startsLine = false
    rw [hplace.1, lineAfter_of_bracket htagged.opening_getLast?]

/-- Closing the innermost open element. -/
theorem closed (h : s.InPlace) {f : Frame} {fs : List Frame} {n : Nat} (hframes : s.frames = f :: fs)
    (htagged : Tagged (.closing f.tag.name) (s.rest.take n) (s.rest.drop n)) :
    InPlace { s.skip n with
      frames := fs
      nodes := State.closed f (s.rest.take n) s.flushed.reverse :: f.before
      pending := [] } := by
  have hplace := startsLine_after h.column (s.rest.take n)
  have hopen := h.frames
  rw [hframes] at hopen
  obtain ⟨hbefore, hopening, houter⟩ := hopen
  have hchildren := h.flushed
  rw [hframes] at hchildren
  have hprint : Node.print (State.closed f (s.rest.take n) s.flushed.reverse) =
      f.opening ++ Node.printAll s.flushed.reverse ++ s.rest.take n := by
    simp [State.closed, Node.print, Tag.print]
  have hinner : Node.printAll s.flushed.reverse ++ s.rest =
      Node.printAll s.nodes.reverse ++ (s.pending.reverse ++ s.rest) := by
    rw [printAll_flushed, List.append_assoc]
  rw [← hinner] at hbefore hopening houter
  have hlast : (Node.print (State.closed f (s.rest.take n) s.flushed.reverse)).getLast? = some '>' := by
    rw [hprint, List.getLast?_append, htagged.closing_getLast?]
    rfl
  -- The closed element is one more node of the one around it, whose line goes on behind its last bracket.
  refine ⟨?_, ?_, .nil _ _, ?_, hplace.2⟩
  · simpa [skip, hprint] using houter
  · show Reads fs.isEmpty fs.isEmpty (State.closed f _ _ :: f.before).reverse ([] ++ s.rest.drop n)
    rw [List.reverse_cons]
    refine Reads.append (by simpa [hprint] using hbefore) ?_
    refine .enclosing ?_ hprint ?_ ?_ ?_ (.nil _ _ _)
    · rintro source hsource
      exact (Option.some.inj hsource).symm
    · simpa [State.closed] using hopening
    · simpa using hchildren
    · simpa [State.closed] using htagged
  · show (s.place.after (s.rest.take n)).startsLine =
      lineAfter fs.isEmpty (Node.printAll (State.closed f _ _ :: f.before).reverse ++ [])
    rw [hplace.1, lineAfter_of_bracket htagged.closing_getLast?, List.append_nil, List.reverse_cons,
      Node.printAll_append, lineAfter_append, Node.printAll_cons, Node.printAll_nil, List.append_nil,
      lineAfter_of_bracket hlast]

end InPlace

/-- A step keeps what was read in its place. -/
theorem Step.inPlace (hstep : Step s t) (h : s.InPlace) : t.InPlace := by
  obtain ⟨hrest, hstep⟩ := hstep
  unfold step at hstep
  cases hpiece : Piece.ofText s.frames.isEmpty s.place.startsLine s.rest with
  | error f =>
      rw [hpiece] at hstep
      cases hstep
  | ok p =>
      rw [hpiece] at hstep
      have hstarts : Piece.Starts s.frames.isEmpty s.place.startsLine s.rest p := by
        obtain ⟨c, text, hcons⟩ := List.exists_cons_of_ne_nil hrest
        rw [hcons] at hpiece ⊢
        exact Piece.ofText_starts hpiece
      -- The cases of `Piece.Starts` fix the first character of the text.
      generalize hs : s.rest = text at hstarts
      cases hstarts with
      | prose _ =>
          cases hstep
          exact h.takeProse hrest hpiece
      | script houtside hline hstart =>
          cases hstep
          refine h.takeNode (by rw [Node.print]) ?_
          subst hs
          rw [houtside, hline]
          refine .script ?_ ?_ (.nil _ _ _)
          · simpa using hstart
          · simp
      | @expression inner n hgroup =>
          cases hstep
          have htaken := groupLength?_take hgroup
          obtain ⟨body, rest, hsplit, hn⟩ := groupLength?_closes hgroup
          have hvalue : (s.rest.drop 1).take (n - 2) = inner.take (n - 2) := by rw [hs]; rfl
          have hlength : (inner.take (n - 2)).length + 2 = n := by
            have htotal := congrArg List.length htaken
            rw [List.length_take, hsplit] at htotal
            simp at htotal
            simp
            omega
          rw [hvalue]
          refine h.takeNode (by rw [Node.print, hs, htaken]) (.expression ?_ (.nil _ _ _))
          have hwhole : '\x7b' :: inner.take (n - 2) ++ '\x7d' :: (Node.printAll [] ++ s.rest.drop n) =
              '\x7b' :: inner := by
            have hboth := List.take_append_drop n ('\x7b' :: inner)
            rw [htaken] at hboth
            simpa [hs] using hboth
          rw [hlength, hwhole, hgroup]
      | @opening inner tag n hread =>
          cases hstep
          have htagged := InPlace.tagged (by rw [hs]; rfl)
            (by rw [hs]; exact readOpeningTag_closes hread) hpiece
          unfold takeOpening
          dsimp only
          split
          · rename_i hself
            refine h.takeNode (by simp [Node.print, Tag.print]) (.childless ?_ ?_ (.nil _ _ _))
            · rintro source hsource
              simpa [Node.print, Tag.print] using (Option.some.inj hsource).symm
            · rw [← hself]
              simpa [Node.print, Tag.print] using htagged
          · rename_i hself
            exact h.opened (by simpa using hself) htagged
      | @closing inner name n hread =>
          have htagged := InPlace.tagged (by rw [hs]; rfl)
            (by rw [hs]; exact readClosingTag_closes hread) hpiece
          dsimp only [takeClosing] at hstep
          split at hstep
          · cases hstep
          · rename_i f fs hframes
            split at hstep
            · cases hstep
            · rename_i hname
              have hsame : name = f.tag.name := by simpa using hname
              subst hsame
              cases hstep
              exact h.closed hframes htagged

theorem inPlace_of_steps (hsteps : Relation.ReflTransGen Step s t) (h : s.InPlace) : t.InPlace := by
  induction hsteps with
  | refl => exact h
  | tail _ hstep ih => exact hstep.inPlace ih

end State

/-- What was read is recognised where it stands. -/
theorem parse_reads {source : List Char} {d : Document} (h : parse source = .ok d) :
    Reads true true d.children [] := by
  obtain ⟨last, hsteps, hrest, hfinish⟩ := (State.run_eq_ok_iff (s := { rest := source }) (Nat.le_refl _)).mp h
  have hlast := State.inPlace_of_steps hsteps (.start source)
  unfold State.finish at hfinish
  split at hfinish
  · rename_i hframes
    cases hfinish
    have hflushed := hlast.flushed
    rwa [hframes, hrest] at hflushed
  · cases hfinish

end Markup
end StoryDocs
