import StoryDocs.Proofs.Markup.Alignment

/-!
# Indents before elements

`Indented` says of the nodes of a document that prose is never cut in two, and that before an element which
starts its line the prose ends with a line feed and an indent, or the document starts with the indent.
-/

namespace StoryDocs
namespace Markup

open Text

/-! ## Indents -/

/-- Whether at most an indent stands on its line before what follows a text; `indented` tells whether that
holds before the text. -/
def indentAfter (indented : Bool) (s : List Char) : Bool :=
  s.foldl (fun b c => c == '\n' || (b && isIndent c)) indented

@[simp] theorem indentAfter_nil (b : Bool) : indentAfter b [] = b := rfl

theorem indentAfter_cons (b : Bool) (c : Char) (s : List Char) :
    indentAfter b (c :: s) = indentAfter (c == '\n' || (b && isIndent c)) s := rfl

theorem indentAfter_append (b : Bool) (s t : List Char) :
    indentAfter b (s ++ t) = indentAfter (indentAfter b s) t := by
  simp [indentAfter]

/-- An indent ends the text behind a line feed, or is all of it. -/
theorem exists_indent {b : Bool} {s : List Char} (h : indentAfter b s = true) :
    ∃ u w, s = u ++ w ∧ w.all isIndent = true ∧ (u.getLast? = some '\n' ∨ u = [] ∧ b = true) := by
  induction s generalizing b with
  | nil => exact ⟨[], [], rfl, rfl, .inr ⟨rfl, h⟩⟩
  | cons c s ih =>
      obtain ⟨u, w, rfl, hw, hu | ⟨rfl, hc⟩⟩ := ih h
      · exact ⟨c :: u, w, rfl, hw, .inl (by simp [List.getLast?_cons, hu])⟩
      · by_cases hfeed : c = '\n'
        · exact ⟨['\n'], w, by rw [hfeed]; rfl, hw, .inl rfl⟩
        · have hindent : b = true ∧ isIndent c = true := by simpa [hfeed] using hc
          exact ⟨[], c :: w, rfl, by simp [hindent.2, hw], .inr ⟨rfl, hindent.1⟩⟩

theorem indentAfter_of_all {s : List Char} (h : s.all isIndent = true) : indentAfter true s = true := by
  induction s with
  | nil => rfl
  | cons c s ih =>
      rw [List.all_cons, Bool.and_eq_true] at h
      rw [indentAfter_cons, h.1]
      simpa using ih h.2

theorem indentAfter_of_feed {u : List Char} (hu : u.getLast? = some '\n') (b : Bool) :
    indentAfter b u = true := by
  obtain ⟨body, rfl⟩ := List.getLast?_eq_some_iff.mp hu
  rw [indentAfter_append]
  rfl

theorem Place.indented_eq (p : Place) (s : List Char) :
    (p.after s).indented = indentAfter p.indented s := by
  induction s generalizing p with
  | nil => rfl
  | cons c s ih => exact ih (p.advance c)

/-! ## Nodes -/

/-- Whether at most an indent stands on its line before what follows nodes. -/
def marginAfter (b : Bool) (ns : List Node) : Bool :=
  ns.foldl (fun b n => match n with
    | .text value => indentAfter b value
    | _ => false) b

/-- Prose is not cut in two, and elements that start their line have at most an indent before them there, at
every depth.  `b` tells whether at most an indent stands before the nodes. -/
inductive Indented : Bool → List Node → Prop
  | nil (b : Bool) : Indented b []
  | text {b : Bool} {value : List Char} {rest : List Node} (hnext : ∀ v, rest.head? ≠ some (.text v))
      (hrest : Indented (indentAfter b value) rest) : Indented b (.text value :: rest)
  | script {b : Bool} {value : List Char} {rest : List Node} (hrest : Indented false rest) :
      Indented b (.script value :: rest)
  | expression {b : Bool} {value : List Char} {flow : Bool} {rest : List Node}
      (hrest : Indented false rest) : Indented b (.expression value flow :: rest)
  | element {b : Bool} {tag : Tag} {children rest : List Node} (hflow : tag.flow = true → b = true)
      (hchildren : Indented false children) (hrest : Indented false rest) :
      Indented b (.element tag children :: rest)

theorem Indented.append {b : Bool} {ns ms : List Node} (h : Indented b ns)
    (hnext : ∀ u v, ns.getLast? = some (.text u) → ms.head? ≠ some (.text v))
    (hms : Indented (marginAfter b ns) ms) : Indented b (ns ++ ms) := by
  -- Behind the first node the last one is still the last.
  have hbehind : ∀ {n : Node} {rest : List Node},
      (∀ u v, (n :: rest).getLast? = some (.text u) → ms.head? ≠ some (.text v)) →
        ∀ u v, rest.getLast? = some (.text u) → ms.head? ≠ some (.text v) := by
    intro n rest hall u v hlast
    exact hall u v (by rw [List.getLast?_cons, hlast]; rfl)
  induction h with
  | nil b => exact hms
  | @text b value rest hhead _ ih =>
      refine .text (fun v => ?_) (ih (hbehind hnext) hms)
      cases rest with
      | nil => exact hnext value v rfl
      | cons n rest => exact hhead v
  | script _ ih => exact .script (ih (hbehind hnext) hms)
  | expression _ ih => exact .expression (ih (hbehind hnext) hms)
  | element hflow hchildren _ _ ih => exact .element hflow hchildren (ih (hbehind hnext) hms)

/-! ## States -/

namespace State

variable {s t : State}

/-- The open elements are indented, each behind the nodes before it. -/
def FramesIndented : List Frame → Prop
  | [] => True
  | f :: fs =>
    Markup.Indented fs.isEmpty f.before.reverse ∧
      (f.tag.flow = true → marginAfter fs.isEmpty f.before.reverse = true) ∧ FramesIndented fs

/-- All that was read so far is indented. -/
structure Indented (s : State) : Prop where
  frames : FramesIndented s.frames
  nodes : Markup.Indented s.frames.isEmpty s.nodes.reverse
  /-- Prose stays pending until something else comes. -/
  last : ∀ v, s.nodes.head? ≠ some (.text v)
  /-- Behind a script block the line feed is still to be read. -/
  place : s.place.indented = true → marginAfter s.frames.isEmpty s.flushed.reverse = true ∨
    (s.pending = [] ∧ (s.rest = [] ∨ s.rest.head? = some '\n'))

theorem marginAfter_flushed (b : Bool) (s : State) :
    marginAfter b s.flushed.reverse = indentAfter (marginAfter b s.nodes.reverse) s.pending.reverse := by
  unfold flushed
  split
  · rename_i hempty
    rw [List.isEmpty_iff.mp hempty]
    rfl
  · simp [marginAfter]

namespace Indented

theorem start (source : List Char) : Indented { rest := source } where
  frames := trivial
  nodes := .nil _
  last := fun _ => by simp
  place := fun _ => .inl rfl

theorem flushed (h : s.Indented) : Markup.Indented s.frames.isEmpty s.flushed.reverse := by
  unfold State.flushed
  split
  · exact h.nodes
  · rw [List.reverse_cons]
    refine h.nodes.append (fun u v hlast => ?_) (.text (by simp) (.nil _))
    rw [List.getLast?_reverse] at hlast
    exact absurd hlast (h.last u)

theorem takeProse (h : s.Indented) (hrest : s.rest ≠ []) {n : Nat} (hpos : 0 < n) :
    (s.takeProse n).Indented := by
  refine ⟨h.frames, h.nodes, h.last, fun hindented => .inl ?_⟩
  have hplace : indentAfter s.place.indented (s.rest.take n) = true := by
    rw [← Place.indented_eq]
    exact hindented
  rw [marginAfter_flushed]
  show indentAfter (marginAfter s.frames.isEmpty s.nodes.reverse)
    ((s.rest.take n).reverse ++ s.pending).reverse = true
  rw [List.reverse_append, List.reverse_reverse, indentAfter_append, ← marginAfter_flushed]
  obtain ⟨u, w, htaken, hw, hu | ⟨rfl, hbefore⟩⟩ := exists_indent hplace
  · rw [htaken, indentAfter_append, indentAfter_of_feed hu, indentAfter_of_all hw]
  · rw [List.nil_append] at htaken
    rcases h.place hbefore with hmargin | ⟨_, hend | hfeed⟩
    · rw [htaken, hmargin, indentAfter_of_all hw]
    · exact absurd hend hrest
    · -- A line feed is no indent.
      obtain ⟨rest, hcons⟩ := List.head?_eq_some_iff.mp hfeed
      obtain ⟨n, rfl⟩ := Nat.exists_eq_succ_of_ne_zero (by omega : n ≠ 0)
      rw [← htaken, hcons, List.take_succ_cons, List.all_cons] at hw
      cases hw

/-- What starts with another character than a line feed and starts its line has a margin before it. -/
theorem margin (h : s.Indented) {c : Char} (hhead : s.rest.head? = some c) (hc : c ≠ '\n')
    (hindented : s.place.indented = true) : marginAfter s.frames.isEmpty s.flushed.reverse = true := by
  rcases h.place hindented with hmargin | ⟨_, hend | hfeed⟩
  · exact hmargin
  · rw [hend] at hhead
    cases hhead
  · rw [hhead] at hfeed
    exact absurd (Option.some.inj hfeed) hc

/-- A node that is no prose. -/
theorem of_node (h : s.Indented) {node : Node} (hframes : t.frames = s.frames)
    (hnodes : t.nodes = node :: s.flushed) (hpending : t.pending = []) (htext : ∀ v, node ≠ .text v)
    (hnode : Markup.Indented (marginAfter s.frames.isEmpty s.flushed.reverse) [node])
    (hplace : t.place.indented = true → t.rest = [] ∨ t.rest.head? = some '\n') : t.Indented := by
  refine ⟨hframes ▸ h.frames, ?_, ?_, fun hindented => .inr ⟨hpending, hplace hindented⟩⟩
  · rw [hframes, hnodes, List.reverse_cons]
    exact h.flushed.append (fun u v _ hhead => htext v (by simpa using hhead)) hnode
  · intro v hhead
    rw [hnodes] at hhead
    exact htext v (Option.some.inj hhead)

end Indented

/-- Every move keeps what was read indented. -/
theorem Move.indented (hmove : Move s t) (hrest : s.rest ≠ []) (h : s.Indented) : t.Indented := by
  -- A brace or bracket is no indent, so what follows it does not start its line.
  have hbehind : ∀ {last : Char} {n : Nat}, Closes last n s.rest → last = '\x7d' ∨ last = '>' →
      (s.place.after (s.rest.take n)).indented = false := by
    rintro last n hcloses (rfl | rfl)
    · exact Place.indented_after_closes hcloses (by decide) (by decide)
    · exact Place.indented_after_closes hcloses (by decide) (by decide)
  cases hmove with
  | prose hpos => exact h.takeProse hrest hpos
  | script _ _ _ =>
      refine h.of_node rfl rfl rfl (fun _ => Node.noConfusion) (.script (.nil _)) fun _ => ?_
      rcases scriptLength_stops s.rest with hend | ⟨rest, hfeed⟩
      · exact .inl hend
      · exact .inr (by rw [show (s.takeNode _ _).rest = '\n' :: rest from hfeed]; rfl)
  | expression _ hcloses =>
      refine h.of_node rfl rfl rfl (fun _ => Node.noConfusion) (.expression (.nil _))
        fun hindented => ?_
      exact absurd hindented (by simp [takeNode, skip, hbehind hcloses])
  | childless hbracket hread _ =>
      refine h.of_node rfl rfl rfl (fun _ => Node.noConfusion)
        (.element (h.margin hbracket (by decide)) (.nil _) (.nil _)) fun hindented => ?_
      exact absurd hindented (by simp [takeNode, skip, hbehind (readOpeningTag_closes hread)])
  | opening hbracket hread _ =>
      refine ⟨⟨h.flushed, h.margin hbracket (by decide), h.frames⟩, .nil _, by simp,
        fun hindented => ?_⟩
      exact absurd hindented (by simp [skip, hbehind (readOpeningTag_closes hread)])
  | @closing f fs n hframes _ hread =>
      have hopen := h.frames
      rw [hframes] at hopen
      obtain ⟨hbefore, hflow, houter⟩ := hopen
      have hchildren : Markup.Indented false s.flushed.reverse := by
        have hflushed := h.flushed
        rwa [hframes] at hflushed
      refine ⟨houter, ?_, ?_, fun hindented => ?_⟩
      · show Markup.Indented fs.isEmpty (closed f _ _ :: f.before).reverse
        rw [List.reverse_cons]
        exact hbefore.append (fun _ _ _ => by simp [closed]) (.element hflow hchildren (.nil _))
      · simp [closed]
      · exact absurd hindented (by simp [skip, hbehind (readClosingTag_closes hread)])

end State

/-- The nodes of a document are indented. -/
theorem parse_indented {source : List Char} {d : Document} (h : parse source = .ok d) :
    Indented true d.children := by
  obtain ⟨last, hindented, _, hframes, hchildren⟩ :=
    State.parse_invariant State.Indented (fun hrest hmove hs => hmove.indented hrest hs)
      (State.Indented.start source) h
  have hflushed := hindented.flushed
  rwa [hframes, ← hchildren] at hflushed

end Markup
end StoryDocs
