import StoryDocs.Proofs.Markup.Reading

/-!
# Elements that start their line

An element starts its line when only spaces and tabs stand before it there.  In a document such an element
stands behind prose with a line feed, or behind nothing but an indent at the start of the document, so
no other element and no expression shares that part of its line.
-/

namespace StoryDocs
namespace Markup

open Text

/-- What stands before a place on its line, as far as the nodes of the same list tell. -/
structure Margin where
  /-- Whether nothing does: the document starts here, or prose ends with a line feed here. -/
  fresh : Bool
  /-- Whether at most an indent does. -/
  clear : Bool
  deriving DecidableEq, Repr

namespace Margin

/-- The start of a document. -/
def start : Margin := ⟨true, true⟩

/-- A place behind a tag, an expression or a script block. -/
def inside : Margin := ⟨false, false⟩

/-- The margin behind a node. -/
def after (m : Margin) : Node → Margin
  | .text value =>
    ⟨value.getLast? == some '\n', value.contains '\n' || (m.fresh && value.all isIndent)⟩
  | _ => inside

/-- The margin behind nodes. -/
def afterAll (m : Margin) (ns : List Node) : Margin :=
  ns.foldl after m

@[simp] theorem afterAll_nil (m : Margin) : m.afterAll [] = m := rfl

@[simp] theorem afterAll_cons (m : Margin) (n : Node) (ns : List Node) :
    m.afterAll (n :: ns) = (m.after n).afterAll ns := rfl

theorem afterAll_concat (m : Margin) (ns : List Node) (n : Node) :
    m.afterAll (ns ++ [n]) = (m.afterAll ns).after n := by
  simp [afterAll]

@[simp] theorem after_element (m : Margin) (tag : Tag) (children : List Node) :
    m.after (.element tag children) = inside := rfl

end Margin

/-- Elements that start their line have a clear margin, at every depth. -/
inductive Aligned : Margin → List Node → Prop
  | nil (m : Margin) : Aligned m []
  | leaf {m : Margin} {n : Node} {rest : List Node}
      (hleaf : ∀ tag children, n ≠ .element tag children) (hrest : Aligned (m.after n) rest) :
      Aligned m (n :: rest)
  | element {m : Margin} {tag : Tag} {children rest : List Node}
      (hflow : tag.flow = true → m.clear = true) (hchildren : Aligned .inside children)
      (hrest : Aligned .inside rest) : Aligned m (.element tag children :: rest)

namespace Aligned

theorem text {m : Margin} {value : List Char} {rest : List Node}
    (hrest : Aligned (m.after (.text value)) rest) : Aligned m (.text value :: rest) :=
  .leaf (fun _ _ => Node.noConfusion) hrest

theorem tail {m : Margin} {n : Node} {rest : List Node} (h : Aligned m (n :: rest)) :
    Aligned (m.after n) rest := by
  cases h with
  | leaf _ hrest => exact hrest
  | element _ _ hrest => exact hrest

theorem of_element {m : Margin} {tag : Tag} {children rest : List Node}
    (h : Aligned m (.element tag children :: rest)) :
    (tag.flow = true → m.clear = true) ∧ Aligned .inside children := by
  cases h with
  | leaf hleaf _ => exact absurd rfl (hleaf tag children)
  | element hflow hchildren _ => exact ⟨hflow, hchildren⟩

theorem append {m : Margin} {ns ms : List Node} (hns : Aligned m ns)
    (hms : Aligned (m.afterAll ns) ms) : Aligned m (ns ++ ms) := by
  induction hns with
  | nil m => exact hms
  | leaf hleaf _ ih => exact .leaf hleaf (ih hms)
  | element hflow hchildren _ _ ih => exact .element hflow hchildren (ih hms)

/-- A list goes on with an element. -/
theorem concat_element {m : Margin} {ns children : List Node} {tag : Tag} (hns : Aligned m ns)
    (hflow : tag.flow = true → (m.afterAll ns).clear = true)
    (hchildren : Aligned .inside children) : Aligned m (ns ++ [.element tag children]) :=
  hns.append (.element hflow hchildren (.nil _))

/-- A list goes on with something else. -/
theorem concat_leaf {m : Margin} {ns : List Node} {n : Node} (hns : Aligned m ns)
    (hleaf : ∀ tag children, n ≠ .element tag children) : Aligned m (ns ++ [n]) :=
  hns.append (.leaf hleaf (.nil _))

end Aligned

/-! ## Places -/

namespace Place

theorem after_append (p : Place) (s t : List Char) : p.after (s ++ t) = (p.after s).after t := by
  simp [after]

/-- Behind a text only an indent stands on the line, if the text has a line feed or adds to an
indent. -/
theorem indented_after {p : Place} {s : List Char} (h : (p.after s).indented = true) :
    '\n' ∈ s ∨ (p.indented = true ∧ s.all isIndent = true) := by
  induction s generalizing p with
  | nil => exact .inr ⟨h, rfl⟩
  | cons c s ih =>
      rcases ih (p := p.advance c) h with hfeed | ⟨hindented, hall⟩
      · exact .inl (by simp [hfeed])
      · by_cases hc : c = '\n'
        · exact .inl (by simp [hc])
        · simp only [advance, Bool.or_eq_true, beq_iff_eq, hc, false_or,
            Bool.and_eq_true] at hindented
          exact .inr ⟨hindented.1, by simp [hindented.2, hall]⟩

/-- No indent ends with a character of another kind. -/
theorem indented_after_closes {p : Place} {last : Char} {n : Nat} {s : List Char}
    (hcloses : Closes last n s) (hfeed : last ≠ '\n') (hindent : isIndent last = false) :
    (p.after (s.take n)).indented = false := by
  obtain ⟨body, htake, _⟩ := hcloses.take_eq
  rw [htake, after_append]
  simp [after, advance, hfeed, hindent]

end Place

/-! ## States -/

namespace State

/-- The margin in which the nodes of the innermost open element begin. -/
def base (frames : List Frame) : Margin :=
  if frames.isEmpty then .start else .inside

/-- The margin of the place that is read next. -/
def margin (s : State) : Margin :=
  (base s.frames).afterAll s.flushed.reverse

/-- The open elements are aligned, each among the nodes before it. -/
def FramesAligned : List Frame → Prop
  | [] => True
  | f :: fs =>
    Markup.Aligned (base fs) f.before.reverse ∧
      (f.tag.flow = true → ((base fs).afterAll f.before.reverse).clear = true) ∧ FramesAligned fs

/-- All that was read so far is aligned, and the margin agrees with the place. -/
structure Aligned (s : State) : Prop where
  frames : FramesAligned s.frames
  nodes : Markup.Aligned (base s.frames) s.nodes.reverse
  /-- Without pending prose no indent has been read. -/
  settled : ((base s.frames).afterAll s.nodes.reverse).clear = true →
    ((base s.frames).afterAll s.nodes.reverse).fresh = true
  /-- Behind a script block the margin is not known before the line feed is read. -/
  place : s.place.indented = true →
    s.margin.clear = true ∨ s.rest = [] ∨ s.rest.head? = some '\n'

theorem margin_of_pending_nil {s : State} (h : s.pending = []) :
    s.margin = (base s.frames).afterAll s.nodes.reverse := by
  simp [margin, flushed, h]

theorem margin_of_pending {s : State} (h : s.pending ≠ []) :
    s.margin = ((base s.frames).afterAll s.nodes.reverse).after (.text s.pending.reverse) := by
  simp [margin, flushed, h, Margin.afterAll_concat]

namespace Aligned

variable {s : State}

theorem start (source : List Char) : Aligned { rest := source } where
  frames := trivial
  nodes := .nil _
  settled := fun _ => rfl
  place := fun _ => .inl rfl

theorem flushed (h : s.Aligned) : Markup.Aligned (base s.frames) s.flushed.reverse := by
  unfold State.flushed
  split
  · exact h.nodes
  · rw [List.reverse_cons]
    exact h.nodes.concat_leaf (fun _ _ => Node.noConfusion)

/-- Where something starts that is no line feed, a place behind an indent has a clear margin. -/
theorem clear_of_indented (h : s.Aligned) {c : Char} (hhead : s.rest.head? = some c) (hc : c ≠ '\n')
    (hindented : s.place.indented = true) : s.margin.clear = true := by
  rcases h.place hindented with hclear | hend | hfeed
  · exact hclear
  · simp [hend] at hhead
  · rw [hhead] at hfeed
    exact absurd (Option.some.inj hfeed) hc

/-- Prose keeps the margin clear as long as it adds to an indent, and clears it with a line feed. -/
theorem clear_after_prose (h : s.Aligned) (hrest : s.rest ≠ []) {n : Nat} (hpos : 0 < n)
    (hindented : (s.place.after (s.rest.take n)).indented = true) :
    (((base s.frames).afterAll s.nodes.reverse).after
      (.text (s.pending.reverse ++ s.rest.take n))).clear = true := by
  simp only [Margin.after, Bool.or_eq_true, List.contains_iff_mem, List.mem_append,
    Bool.and_eq_true, List.all_append]
  rcases Place.indented_after hindented with hfeed | ⟨hbefore, hall⟩
  · exact .inl (.inr hfeed)
  obtain ⟨c, rest, hcons⟩ := List.exists_cons_of_ne_nil hrest
  have hc : c ≠ '\n' := by
    obtain ⟨n, rfl⟩ := Nat.exists_eq_succ_of_ne_zero (by omega : n ≠ 0)
    rw [hcons, List.take_succ_cons, List.all_cons, Bool.and_eq_true] at hall
    rintro rfl
    exact absurd hall.1 (by decide)
  have hclear := h.clear_of_indented (by rw [hcons]; rfl) hc hbefore
  by_cases hpending : s.pending = []
  · rw [margin_of_pending_nil hpending] at hclear
    exact .inr ⟨h.settled hclear, by simp [hpending], hall⟩
  · rw [margin_of_pending hpending] at hclear
    simp only [Margin.after, Bool.or_eq_true, List.contains_iff_mem, Bool.and_eq_true] at hclear
    rcases hclear with hfeed | ⟨hfresh, hindent⟩
    · exact .inl (.inl hfeed)
    · exact .inr ⟨hfresh, hindent, hall⟩

theorem takeProse (h : s.Aligned) (hrest : s.rest ≠ []) {n : Nat} (hpos : 0 < n) :
    (s.takeProse n).Aligned := by
  refine ⟨h.frames, h.nodes, h.settled, fun hindented => .inl ?_⟩
  have hpending : (s.takeProse n).pending ≠ [] := by
    have hn : n ≠ 0 := by omega
    simp [State.takeProse, hrest, hn]
  have hclear := h.clear_after_prose hrest hpos hindented
  rw [margin_of_pending hpending]
  simpa [State.takeProse, skip] using hclear

/-- A node that is no prose leaves no margin behind it. -/
theorem of_node (h : s.Aligned) {t : State} {node : Node} (hframes : t.frames = s.frames)
    (hnodes : t.nodes = node :: s.flushed) (hnode : ∀ m : Margin, m.after node = .inside)
    (haligned : Markup.Aligned s.margin [node])
    (hplace : t.place.indented = true → t.rest = [] ∨ t.rest.head? = some '\n') : t.Aligned := by
  have hinside : (base t.frames).afterAll t.nodes.reverse = .inside := by
    rw [hnodes, List.reverse_cons, Margin.afterAll_concat, hnode]
  refine ⟨hframes ▸ h.frames, ?_, ?_, fun hindented => .inr (hplace hindented)⟩
  · rw [hframes, hnodes, List.reverse_cons]
    exact h.flushed.append haligned
  · rw [hinside]
    exact id

end Aligned

/-- Every move keeps the elements aligned. -/
theorem Move.aligned {s t : State} (hmove : Move s t) (hrest : s.rest ≠ []) (h : s.Aligned) :
    t.Aligned := by
  -- A brace or bracket is no indent, so what follows it does not start its line.
  have hbehind : ∀ {last : Char} {n : Nat}, Closes last n s.rest → last = '\x7d' ∨ last = '>' →
      (s.place.after (s.rest.take n)).indented = false := by
    rintro last n hcloses (rfl | rfl)
    · exact Place.indented_after_closes hcloses (by decide) (by decide)
    · exact Place.indented_after_closes hcloses (by decide) (by decide)
  cases hmove with
  | prose hpos => exact h.takeProse hrest hpos
  | script _ _ _ =>
      refine h.of_node rfl rfl (fun _ => rfl)
        (.leaf (fun _ _ => Node.noConfusion) (.nil _)) fun _ => ?_
      rcases scriptLength_stops s.rest with hend | ⟨rest, hfeed⟩
      · exact .inl hend
      · exact .inr (by rw [show (s.takeNode _ _).rest = '\n' :: rest from hfeed]; rfl)
  | expression _ hcloses =>
      refine h.of_node rfl rfl (fun _ => rfl)
        (.leaf (fun _ _ => Node.noConfusion) (.nil _)) fun hindented => ?_
      exact absurd hindented (by simp [takeNode, skip, hbehind hcloses])
  | childless hbracket hread _ =>
      refine h.of_node rfl rfl (fun _ => rfl)
        (.element (h.clear_of_indented hbracket (by decide)) (.nil _) (.nil _)) fun hindented => ?_
      exact absurd hindented (by simp [takeNode, skip, hbehind (readOpeningTag_closes hread)])
  | opening hbracket hread _ =>
      refine ⟨⟨h.flushed, h.clear_of_indented hbracket (by decide), h.frames⟩, .nil _, id,
        fun hindented => ?_⟩
      exact absurd hindented (by simp [skip, hbehind (readOpeningTag_closes hread)])
  | @closing f fs n hframes _ hread =>
      have hopen := h.frames
      rw [hframes] at hopen
      obtain ⟨hbefore, hflow, houter⟩ := hopen
      have hchildren : Markup.Aligned .inside s.flushed.reverse := by
        have hflushed := h.flushed
        rwa [hframes] at hflushed
      refine ⟨houter, ?_, ?_, fun hindented => ?_⟩
      · show Markup.Aligned (base fs) (closed f _ _ :: f.before).reverse
        rw [List.reverse_cons]
        exact hbefore.concat_element hflow hchildren
      · simp [closed, Margin.afterAll_concat, Margin.inside]
      · exact absurd hindented (by simp [skip, hbehind (readClosingTag_closes hread)])

end State

/-- The elements of a document that start their line have a clear margin. -/
theorem parse_aligned {source : List Char} {d : Document} (h : parse source = .ok d) :
    Aligned .start d.children := by
  obtain ⟨last, haligned, _, hframes, hchildren⟩ :=
    State.parse_invariant State.Aligned (fun hrest hmove hs => hmove.aligned hrest hs)
      (State.Aligned.start source) h
  have hflushed := haligned.flushed
  rwa [hframes, ← hchildren] at hflushed

end Markup
end StoryDocs
