import Mathlib.Data.List.Forall2
import StoryDocs.Proofs.Markup.Alignment
import StoryDocs.Proofs.Markup.Lossless
import StoryDocs.Proofs.Story.Extraction
import StoryDocs.Proofs.Text.Trimming

/-!
# What extraction leaves of a document

Extraction gives every segment of a document a new text: references for metadata and named stories, nothing
for a story without a name, and for prose the prose itself, of which a story that is dropped with its line
takes blanks at the end next to it.  All else keeps its text.
-/

namespace StoryDocs

open Text Markup

/-! ## Prose next to a dropped story -/

theorem isBlank_of_isIndent {c : Char} (h : isIndent c = true) : isBlank c = true := by
  simp only [isIndent, Bool.or_eq_true, beq_iff_eq] at h
  rcases h with rfl | rfl
  · decide
  · decide

/-- Only blank lines are dropped, and a line that is kept is not blank. -/
theorem dropBlankLines_spec (ls : List (List Char)) :
    (∃ lead, unlines ls = lead ++ unlines (dropBlankLines ls) ∧ allBlank lead = true) ∧
      (dropBlankLines ls = [] ∨ ∃ l rest, dropBlankLines ls = l :: rest ∧ allBlank l = false) := by
  induction ls with
  | nil => exact ⟨⟨[], rfl, rfl⟩, .inl rfl⟩
  | cons l ls ih =>
      cases ls with
      | nil =>
          rw [dropBlankLines]
          split
          · rename_i hblank
            exact ⟨⟨l, by simp [unlines], hblank⟩, .inl rfl⟩
          · rename_i hblank
            exact ⟨⟨[], rfl, rfl⟩, .inr ⟨l, [], rfl, by simpa using hblank⟩⟩
      | cons m ls =>
          rw [dropBlankLines]
          split
          · rename_i hblank
            obtain ⟨⟨lead, hsplit, hlead⟩, hrest⟩ := ih
            refine ⟨⟨l ++ '\n' :: lead, ?_, ?_⟩, hrest⟩
            · rw [unlines_cons (by simp), hsplit]
              simp
            · have hfeed : isBlank '\n' = true := by decide
              simp only [allBlank] at hblank hlead ⊢
              simp [List.all_append, hblank, hfeed, hlead]
          · rename_i hblank
            exact ⟨⟨[], rfl, rfl⟩, .inr ⟨l, m :: ls, rfl, by simpa using hblank⟩⟩
          · simp

/-- The rest of a line and the blank lines after it are blanks at the start of the prose. -/
theorem exists_append_stripLine (value : List Char) :
    ∃ lead, value = lead ++ stripLine value ∧ allBlank lead = true := by
  obtain ⟨⟨lead, hsplit, hlead⟩, _⟩ := dropBlankLines_spec (pieces value)
  rw [unlines_pieces] at hsplit
  exact ⟨lead, hsplit, hlead⟩

/-- Prose that is left behind a dropped story is not blank. -/
theorem stripLine_all_isIndent {value : List Char} (h : (stripLine value).all isIndent = true) :
    stripLine value = [] := by
  -- The first line that is kept has a character that is no blank, and an indent is blank.
  obtain ⟨_, hnil | ⟨l, rest, hcons, hblank⟩⟩ := dropBlankLines_spec (pieces value)
  · rw [stripLine, hnil]
    rfl
  · exfalso
    have hl : l.all isIndent = true := by
      rw [stripLine, hcons] at h
      cases rest with
      | nil => exact h
      | cons m rest =>
          rw [unlines_cons (by simp), List.all_append, Bool.and_eq_true] at h
          exact h.1
    have hall : allBlank l = true := by
      rw [allBlank, List.all_eq_true]
      exact fun c hc => isBlank_of_isIndent (List.all_eq_true.mp hl c hc)
    rw [hblank] at hall
    cases hall

/-! ## Nodes before a dropped story -/

theorem trimIndent_text (value : List Char) (before : List Node) :
    trimIndent (.text value :: before) =
      if dropTail isIndent value = [] then before
      else .text (dropTail isIndent value) :: before := by
  rw [trimIndent]
  split
  · rename_i hnil
    rw [if_pos hnil]
  · rename_i hne
    rw [if_neg hne]

/-- Trimming takes the indent at the end of the last prose off what is printed. -/
theorem printAll_trimIndent_text (value : List Char) (before : List Node) :
    Node.printAll (trimIndent (.text value :: before)).reverse =
      Node.printAll before.reverse ++ dropTail isIndent value := by
  rw [trimIndent_text]
  split
  · rename_i hnil
    rw [hnil, List.append_nil]
  · simp [Node.print]

/-- Nodes that a dropped story behind them leaves as they are. -/
def Settled (done : List Node) : Prop :=
  trimIndent done = done

namespace Settled

theorem of_trimmed {value : List Char} {before : List Node} (hne : value ≠ [])
    (htrimmed : dropTail isIndent value = value) : Settled (.text value :: before) := by
  rw [Settled, trimIndent_text, htrimmed, if_neg hne]

/-- Trimming once is enough if it does not use up the prose. -/
theorem trimIndent_text {value : List Char} {before : List Node}
    (hne : dropTail isIndent value ≠ []) : Settled (trimIndent (.text value :: before)) := by
  rw [StoryDocs.trimIndent_text, if_neg hne]
  exact of_trimmed hne (dropTail_dropTail isIndent value)

theorem of_getLast? {value : List Char} {before : List Node}
    (hlast : value.getLast? = some '\n') : Settled (.text value :: before) := by
  refine of_trimmed ?_ (dropTail_of_getLast? hlast (by decide))
  rintro rfl
  simp at hlast

end Settled

/-- The state in which extraction can meet a story that is dropped: the nodes behind it need no second
trimming.  `strip` tells whether such a story stands just before. -/
structure Ready (m : Margin) (strip : Bool) (done : List Node) : Prop where
  settled : strip = true → Settled done
  clear : m.clear = true → Settled (trimIndent done)
  fresh : m.fresh = true → strip = false ∧ Settled done

namespace Ready

theorem inside {strip : Bool} {done : List Node} (hsettled : strip = true → Settled done) :
    Ready .inside strip done where
  settled := hsettled
  clear := fun h => by cases h
  fresh := fun h => by cases h

theorem start : Ready .start false [] where
  settled := fun _ => rfl
  clear := fun _ => rfl
  fresh := fun _ => ⟨rfl, rfl⟩

/-- Prose that goes on behind anything else than a dropped story. -/
theorem text {m : Margin} {done : List Node} (h : Ready m false done) (value : List Char) :
    Ready (m.after (.text value)) false (.text value :: done) where
  settled := fun hstrip => by cases hstrip
  clear := by
    intro hclear
    simp only [Margin.after, Bool.or_eq_true, List.contains_iff_mem, Bool.and_eq_true] at hclear
    rcases hclear with hfeed | ⟨hfresh, hindent⟩
    · refine Settled.trimIndent_text fun hnil => ?_
      have hall := List.all_eq_true.mp (dropTail_eq_nil_iff.mp hnil) '\n' hfeed
      exact absurd hall (by decide)
    · rw [trimIndent_text, if_pos (dropTail_eq_nil_iff.mpr hindent)]
      exact (h.fresh hfresh).2
  fresh := by
    intro hfresh
    simp only [Margin.after, beq_iff_eq] at hfresh
    exact ⟨rfl, .of_getLast? hfresh⟩

/-- Prose behind a dropped story. -/
theorem stripped {m : Margin} {done : List Node} (h : Ready m true done) (value : List Char) :
    Ready (m.after (.text value)) false (stripNode (.text value) ++ done) := by
  have hdone : Settled done := h.settled rfl
  rw [stripNode]
  split
  · refine ⟨fun _ => hdone, fun _ => ?_, fun _ => ⟨rfl, hdone⟩⟩
    rw [List.nil_append, hdone]
    exact hdone
  · rename_i hne
    refine ⟨fun hstrip => Bool.noConfusion hstrip, fun _ => Settled.trimIndent_text fun hnil => ?_,
      fun hfresh => ⟨rfl, .of_getLast? ?_⟩⟩
    · exact hne (stripLine_all_isIndent (dropTail_eq_nil_iff.mp hnil))
    · obtain ⟨lead, hsplit, _⟩ := exists_append_stripLine value
      have hlast : value.getLast? = some '\n' := by simpa [Margin.after] using hfresh
      rw [hsplit, List.getLast?_append] at hlast
      cases hkept : (stripLine value).getLast? with
      | none => exact absurd (List.getLast?_eq_none_iff.mp hkept) hne
      | some d =>
          rw [hkept] at hlast
          exact hlast

end Ready

/-! ## The new text of a segment -/

namespace Segment

/-- The text that extraction gives a segment.  `behind` and `before` tell whether the segment stands just
behind or just before a story that is dropped with its line. -/
def rewritten (ns : List Char) (behind before : Bool) : Segment → List Char
  | prose value =>
    let kept := if behind then stripLine value else value
    if before then dropTail isIndent kept else kept
  | fixed value => value
  | metadata tag children _ => Node.print (.element (tag.withAttributes [reference ns]) children)
  | story tag _ _ =>
    match Story.literalName? tag with
    | some name =>
      Node.print
        (.element (tag.withAttributes [reference (ns ++ '.' :: Naming.capitalize name)]) [])
    | none => []

/-- Whether the first of some segments is a story that is dropped with its line. -/
def startsDropped (segments : List Segment) : Bool :=
  segments.head?.any dropped

@[simp] theorem startsDropped_nil : startsDropped [] = false := rfl

@[simp] theorem startsDropped_cons (s : Segment) (rest : List Segment) :
    startsDropped (s :: rest) = s.dropped := rfl

/-- The texts that extraction gives segments in a row. -/
def rewrittenAll (ns : List Char) : Bool → List Segment → List (List Char)
  | _, [] => []
  | behind, s :: rest =>
    s.rewritten ns behind (startsDropped rest) :: rewrittenAll ns s.dropped rest

/-- Segments up to a fixed one and those behind it do not touch each other. -/
theorem rewrittenAll_append_fixed (ns : List Char) (behind : Bool) (segments rest : List Segment)
    (value : List Char) :
    rewrittenAll ns behind (segments ++ .fixed value :: rest) =
      rewrittenAll ns behind segments ++ value :: rewrittenAll ns false rest := by
  induction segments generalizing behind with
  | nil => simp [rewrittenAll, rewritten, dropped]
  | cons s segments ih =>
      have hnext : startsDropped (segments ++ .fixed value :: rest) = startsDropped segments := by
        cases segments with
        | nil => rfl
        | cons t segments => rfl
      simp [rewrittenAll, ih, hnext]

end Segment

open Segment

/-- The nodes that stand before the next segment, after the segment took their indent. -/
def trimmedFor (segments : List Segment) (done : List Node) : List Node :=
  if startsDropped segments then trimIndent done else done

/-- Only prose is trimmed. -/
theorem trimmedFor_cons {n : Node} (hn : ∀ value, n ≠ .text value) (segments : List Segment)
    (done : List Node) : trimmedFor segments (n :: done) = n :: done := by
  unfold trimmedFor
  split
  · cases n with
    | text value => exact absurd rfl (hn value)
    | script value => rfl
    | expression value flow => rfl
    | element tag children => rfl
  · rfl

/-- Prose prints as its new text, whatever stands next to it. -/
theorem printAll_trimmedFor_text {m : Margin} {strip : Bool} {done : List Node}
    (hready : Ready m strip done) (ns value : List Char) (rest : List Segment) :
    Node.printAll (trimmedFor rest
        ((if strip then stripNode (.text value) else [.text value]) ++ done)).reverse =
      Node.printAll done.reverse ++ (prose value).rewritten ns strip (startsDropped rest) := by
  unfold trimmedFor
  cases strip with
  | false =>
      cases startsDropped rest with
      | false => simp [rewritten, Node.print]
      | true => simp [rewritten, printAll_trimIndent_text]
  | true =>
      have hdone : trimIndent done = done := hready.settled rfl
      by_cases hnil : stripLine value = []
      · cases startsDropped rest with
        | false => simp [stripNode, rewritten, hnil]
        | true => simp [stripNode, rewritten, hnil, hdone, dropTail]
      · cases startsDropped rest with
        | false => simp [stripNode, rewritten, Node.print]
        | true => simp [stripNode, rewritten, printAll_trimIndent_text]

/-- Nodes without a clear margin do not begin with a story that starts its line. -/
theorem startsDropped_of_inside {nodes : List Node} (h : Aligned .inside nodes) :
    startsDropped (Node.segmentsAll nodes) = false := by
  cases nodes with
  | nil => simp
  | cons n rest =>
      cases n with
      | text value => simp [dropped]
      | script value => simp [dropped]
      | expression value flow => simp [dropped]
      | element tag children =>
          have hflow : tag.flow = false := by
            cases hf : tag.flow with
            | false => rfl
            | true => exact absurd (h.of_element.1 hf) (by decide)
          rw [segmentsAll_cons, Node.segments]
          split
          · rfl
          split
          · simp [dropped, hflow]
          · rfl

/-- An element that keeps its tags prints them around its new children. -/
theorem print_of_pristine_element {tag : Tag} {children inner : List Node}
    (h : (Node.element tag children).Pristine) (hempty : children = [] → inner = []) :
    Node.print (.element tag inner) = tag.openingText ++ Node.printAll inner ++ tag.closingText := by
  cases h with
  | childless hsource =>
      simp [hempty rfl, Node.print, Tag.print, Tag.openingText, Tag.closingText, hsource]
  | enclosing hsource _ =>
      simp [Node.print, Tag.print, Tag.openingText, Tag.closingText, hsource]

/-- Extraction prints what was done before and then the new text of one segment after the other. -/
theorem printAll_extractFrom (ns : List Char) {m : Margin} {strip : Bool} {nodes done : List Node}
    (hpristine : ∀ n ∈ nodes, n.Pristine) (haligned : Aligned m nodes)
    (hready : Ready m strip done) (c : Collected) :
    Node.printAll (extractFrom ns nodes strip done c).1 =
      Node.printAll (trimmedFor (Node.segmentsAll nodes) done).reverse ++
        (rewrittenAll ns strip (Node.segmentsAll nodes)).flatten := by
  -- The nodes done before a segment are settled whenever the segment is a dropped story, so that each
  -- story trims the prose just before it and no other.
  have hinside : ∀ done : List Node, Ready .inside false done :=
    fun _ => .inside fun h => Bool.noConfusion h
  induction nodes using extraction_induction generalizing m strip done c with
  | nil => simp [extractFrom_nil, rewrittenAll, trimmedFor]
  | text value rest ih =>
      have hnext : Ready (m.after (.text value)) false
          ((if strip then stripNode (.text value) else [.text value]) ++ done) := by
        cases strip with
        | false => exact hready.text value
        | true => exact hready.stripped value
      rw [extractFrom_text, ih (fun n hn => hpristine n (by simp [hn])) haligned.tail hnext,
        printAll_trimmedFor_text hready ns]
      simp [rewrittenAll, trimmedFor, dropped]
  | script value rest ih =>
      rw [extractFrom_script, ih (fun n hn => hpristine n (by simp [hn])) haligned.tail (hinside _),
        trimmedFor_cons (by simp)]
      simp [rewrittenAll, trimmedFor, dropped, rewritten, Node.print]
  | expression value flow rest ih =>
      rw [extractFrom_expression, ih (fun n hn => hpristine n (by simp [hn])) haligned.tail (hinside _),
        trimmedFor_cons (by simp)]
      simp [rewrittenAll, trimmedFor, dropped, rewritten]
  | metadata tag children rest hname ih =>
      rw [extractFrom_metadata hname, ih (fun n hn => hpristine n (by simp [hn])) haligned.tail
        (hinside _), trimmedFor_cons (by simp)]
      simp [segments_metadata hname, rewrittenAll, trimmedFor, dropped, rewritten]
  | named tag children rest name hname hliteral ih =>
      rw [extractFrom_named hname hliteral, ih (fun n hn => hpristine n (by simp [hn]))
        haligned.tail (hinside _), trimmedFor_cons (by simp)]
      simp [segments_story hname, rewrittenAll, trimmedFor, dropped, rewritten,
        hliteral]
  | unnamed tag children rest hname hliteral ih =>
      -- Behind the story no line starts, so no other story is dropped there.
      have hnext : startsDropped (Node.segmentsAll rest) = false :=
        startsDropped_of_inside haligned.tail
      have hready' : Ready .inside tag.flow (if tag.flow then trimIndent done else done) := by
        refine .inside fun hflow => ?_
        rw [if_pos hflow]
        exact hready.clear (haligned.of_element.1 hflow)
      rw [extractFrom_unnamed hname hliteral, ih (fun n hn => hpristine n (by simp [hn]))
        haligned.tail hready']
      simp [segments_story hname, rewrittenAll, trimmedFor, hnext, dropped,
        rewritten, hliteral]
  | other tag children rest hmeta hstory ihc ih =>
      have helement := hpristine (.element tag children) (by simp)
      -- The children start behind the opening tag, with nothing done and no line to strip.
      have hinner := ihc helement.children haligned.of_element.2 (hinside []) c
      have hempty : children = [] → (extractFrom ns children false [] c).1 = [] := by
        rintro rfl
        rw [extractFrom_nil]
        rfl
      have hprint := print_of_pristine_element helement hempty
      rw [extractFrom_other hmeta hstory, ih (fun n hn => hpristine n (by simp [hn]))
        haligned.tail (hinside _), trimmedFor_cons (by simp)]
      simp [segments_other hmeta hstory, rewrittenAll, rewrittenAll_append_fixed, trimmedFor, dropped,
        rewritten, hprint, hinner, trimIndent]

/-! ## What a segment may become -/

/-- What may become of a segment.  `behind` and `before` tell whether it stands just behind or just before
a story that is dropped with its line; only then prose can lose blanks, and only at the end next to that
story. -/
inductive Segment.Becomes (ns : List Char) (behind before : Bool) : Segment → List Char → Prop
  | fixed (value : List Char) : Becomes ns behind before (.fixed value) value
  | prose {lead kept trail : List Char} (hlead : allBlank lead = true)
      (htrail : allBlank trail = true) (hbehind : behind = false → lead = [])
      (hbefore : before = false → trail = []) :
      Becomes ns behind before (.prose (lead ++ kept ++ trail)) kept
  | alone {tag : Tag} {hname : tag.name = metaElement} :
      Becomes ns behind before (.metadata tag [] hname)
        ("<Meta of=\x7b".toList ++ ns ++ "\x7d />".toList)
  | around {tag : Tag} {children : List Node} {hname : tag.name = metaElement}
      (hchildren : children ≠ []) :
      Becomes ns behind before (.metadata tag children hname)
        ("<Meta of=\x7b".toList ++ ns ++ "\x7d>".toList ++ Node.printAll children ++
          "</Meta>".toList)
  | named {tag : Tag} {children : List Node} {hname : tag.name = storyElement} {name : List Char}
      (hliteral : Story.literalName? tag = some name) :
      Becomes ns behind before (.story tag children hname)
        ("<Story of=\x7b".toList ++ ns ++ '.' :: Naming.capitalize name ++ "\x7d />".toList)
  | unnamed {tag : Tag} {children : List Node} {hname : tag.name = storyElement}
      (hliteral : Story.literalName? tag = none) :
      Becomes ns behind before (.story tag children hname) []

/-- What may become of segments in a row, each next to its neighbours. -/
inductive Rewritten (ns : List Char) : Bool → List Segment → List (List Char) → Prop
  | nil (behind : Bool) : Rewritten ns behind [] []
  | cons {behind : Bool} {s : Segment} {rest : List Segment} {text : List Char}
      {texts : List (List Char)} (hfirst : s.Becomes ns behind (startsDropped rest) text)
      (hrest : Rewritten ns s.dropped rest texts) : Rewritten ns behind (s :: rest) (text :: texts)

/-- Prose loses blanks at its ends and nothing else. -/
theorem Segment.prose_becomes (ns value : List Char) (behind before : Bool) :
    (prose value).Becomes ns behind before ((prose value).rewritten ns behind before) := by
  obtain ⟨lead, kept, hkept, hlead, hbehind, hvalue⟩ : ∃ lead kept : List Char,
      kept = (if behind then stripLine value else value) ∧ allBlank lead = true ∧
        (behind = false → lead = []) ∧ value = lead ++ kept := by
    cases behind with
    | false => exact ⟨[], value, rfl, rfl, fun _ => rfl, rfl⟩
    | true =>
        obtain ⟨lead, hsplit, hlead⟩ := exists_append_stripLine value
        exact ⟨lead, stripLine value, rfl, hlead, fun h => Bool.noConfusion h, hsplit⟩
  have hrewritten : (prose value).rewritten ns behind before =
      if before then dropTail isIndent kept else kept := by
    rw [hkept]
    rfl
  rw [hrewritten, hvalue]
  cases before with
  | false =>
      have hprose : (prose (lead ++ kept ++ [])).Becomes ns behind false kept :=
        .prose hlead rfl hbehind fun _ => rfl
      rwa [List.append_nil] at hprose
  | true =>
      obtain ⟨trail, hsplit, htrail⟩ := exists_dropTail_append isIndent kept
      have hblank : allBlank trail = true := by
        rw [allBlank, List.all_eq_true]
        exact fun c hc => isBlank_of_isIndent (List.all_eq_true.mp htrail c hc)
      have hprose : (prose (lead ++ dropTail isIndent kept ++ trail)).Becomes ns behind true
          (dropTail isIndent kept) :=
        .prose hlead hblank hbehind fun h => Bool.noConfusion h
      rwa [List.append_assoc, ← hsplit] at hprose

/-- An element without children that refers to an exported value. -/
theorem print_reference_alone (tag : Tag) (target : List Char) (hname : tag.name ≠ []) :
    Node.print (.element (tag.withAttributes [reference target]) []) =
      '<' :: tag.name ++ " of=\x7b".toList ++ target ++ "\x7d />".toList := by
  have hnonempty : tag.name.isEmpty = false := by simpa using hname
  simp [Node.print, Tag.print, Tag.withAttributes, Tag.head, reference, Attribute.print, hnonempty]

/-- An element with children that refers to an exported value. -/
theorem print_reference_around (tag : Tag) (target : List Char) {children : List Node}
    (hchildren : children ≠ []) :
    Node.print (.element (tag.withAttributes [reference target]) children) =
      '<' :: tag.name ++ " of=\x7b".toList ++ target ++ "\x7d>".toList ++
        Node.printAll children ++ ('<' :: '/' :: tag.name ++ ['>']) := by
  have hnonempty : children.isEmpty = false := by simpa using hchildren
  simp [Node.print, Tag.print, Tag.withAttributes, Tag.head, reference, Attribute.print, hnonempty]

/-- The text that extraction gives a segment is what may become of it. -/
theorem Segment.becomes_rewritten (ns : List Char) (behind before : Bool) (s : Segment) :
    s.Becomes ns behind before (s.rewritten ns behind before) := by
  cases s with
  | prose value => exact prose_becomes ns value behind before
  | fixed value => exact .fixed value
  | metadata tag children hname =>
      by_cases hchildren : children = []
      · subst hchildren
        rw [rewritten, print_reference_alone tag ns (by rw [hname]; decide), hname]
        exact .alone
      · rw [rewritten, print_reference_around tag ns hchildren, hname]
        exact .around hchildren
  | story tag children hname =>
      cases hliteral : Story.literalName? tag with
      | some name =>
          simp only [rewritten, hliteral]
          rw [print_reference_alone tag _ (by rw [hname]; decide), hname]
          exact .named hliteral
      | none =>
          simp only [rewritten, hliteral]
          exact .unnamed hliteral

theorem rewritten_rewrittenAll (ns : List Char) (behind : Bool) (segments : List Segment) :
    Rewritten ns behind segments (rewrittenAll ns behind segments) := by
  induction segments generalizing behind with
  | nil => exact .nil behind
  | cons s rest ih => exact .cons (becomes_rewritten ns behind _ s) (ih s.dropped)

/-- Without dropped stories prose has no neighbour that could take blanks off it. -/
theorem Rewritten.forall₂ {ns : List Char} {segments : List Segment} {texts : List (List Char)}
    (h : Rewritten ns false segments texts) (hdropped : ∀ s ∈ segments, s.dropped = false) :
    List.Forall₂ (Segment.Becomes ns false false) segments texts := by
  induction segments generalizing texts with
  | nil =>
      cases h
      exact .nil
  | cons s rest ih =>
      cases h with
      | cons hfirst hrest =>
          have hnext : startsDropped rest = false := by
            cases rest with
            | nil => rfl
            | cons t rest => exact hdropped t (by simp)
          rw [hnext] at hfirst
          rw [hdropped s (by simp)] at hrest
          exact .cons hfirst (ih hrest fun t ht => hdropped t (by simp [ht]))

/-- Extraction prints the new texts of the segments, for nodes as they are read. -/
theorem printAll_extract (ns : List Char) {nodes : List Node}
    (hpristine : ∀ n ∈ nodes, n.Pristine) (haligned : Aligned .start nodes) :
    (extract ns ⟨nodes⟩).1.print = (rewrittenAll ns false (Node.segmentsAll nodes)).flatten := by
  have hprint := printAll_extractFrom ns hpristine haligned Ready.start {}
  have hdone : trimmedFor (Node.segmentsAll nodes) [] = [] := by
    unfold trimmedFor
    split <;> rfl
  rw [hdone] at hprint
  exact hprint

/-- Extraction keeps all that is not its own.  The segments of a document make up its source, and the text
of every segment becomes what `Segment.Becomes` says: tags of other elements, script blocks and expressions
stay, metadata and named stories become references, unnamed stories vanish, and prose next to a story that
is dropped with its line can lose blanks.  If no story is dropped with its line, prose stays too. -/
theorem extract_print_segments (ns : List Char) {source : List Char} {d : Document}
    (h : parse source = .ok d) :
    ∃ texts : List (List Char),
      source = d.segments.flatMap Segment.source ∧
      (extract ns d).1.print = texts.flatten ∧
      Rewritten ns false d.segments texts ∧
      ((∀ s ∈ d.segments, s.dropped = false) →
        List.Forall₂ (Segment.Becomes ns false false) d.segments texts) := by
  have hpristine := parse_pristine h
  have hrewritten := rewritten_rewrittenAll ns false d.segments
  refine ⟨rewrittenAll ns false d.segments, ?_, ?_, hrewritten, hrewritten.forall₂⟩
  · rw [Document.segments, flatMap_segmentsAll fun n hn => flatMap_segments (hpristine n hn)]
    exact (parse_print h).symm
  · exact printAll_extract ns hpristine (parse_aligned h)

/-- A nested metadata element with children, a named story, and two stories that are dropped with their
lines. -/
theorem extract_print_segments_nested :
    ∃ d texts, parse ("<A>\n  <Meta t='u'>x</Meta>\n  <Story>a</Story>\n  <Story />\n\n" ++
        "<Story name='b'>c</Story> d\n</A>").toList = .ok d ∧
      ("<A>\n  <Meta t='u'>x</Meta>\n  <Story>a</Story>\n  <Story />\n\n" ++
        "<Story name='b'>c</Story> d\n</A>").toList = d.segments.flatMap Segment.source ∧
      (extract "N".toList d).1.print = List.flatten texts ∧
      Rewritten "N".toList false d.segments texts := by
  have hparse : ∃ d, parse ("<A>\n  <Meta t='u'>x</Meta>\n  <Story>a</Story>\n  <Story />\n\n" ++
      "<Story name='b'>c</Story> d\n</A>").toList = .ok d := ⟨_, rfl⟩
  obtain ⟨d, hd⟩ := hparse
  obtain ⟨texts, hsource, hprint, hrewritten, _⟩ := extract_print_segments "N".toList hd
  exact ⟨d, texts, hd, hsource, hprint, hrewritten⟩

end StoryDocs
