import StoryDocs.Proofs.Markup.Faults
import StoryDocs.Proofs.Markup.Indent
import StoryDocs.Proofs.Markup.Recognition
import StoryDocs.Proofs.Markup.Surroundings
import StoryDocs.Proofs.Text.Dedent

/-!
# Exact coordinates

A position counts the text in front of it: its bytes, its lines, and the characters on the last of them.  The elements of
a document that was read, and the errors of a text that is none, have positions that count the text in front of what they
are about.  So the bytes of two elements are nested when one is inside the other, and disjoint otherwise.
-/

namespace StoryDocs
namespace Markup

open Text

/-! ## Text in front of a position -/

/-- A position counts a text. -/
structure Position.Counts (p : Position) (before : List Char) : Prop where
  offset : p.offset = byteSize before
  line : p.line = before.count '\n' + 1
  column : p.column = (lastLine before).length + 1

theorem Position.counts_after_start (before : List Char) : (start.after before).Counts before where
  offset := by rw [offset_after, start, Nat.zero_add]
  line := line_after_start before
  column := by rw [column_after_start, lastLine, List.length_reverse]

theorem Position.counts_of_place (before : List Char) : (Place.start.after before).position.Counts before := by
  rw [Place.position_after]
  exact counts_after_start before

theorem indentAfter_start (s : List Char) : indentAfter true s = (lastLine s).all isIndent := by
  induction s using List.reverseRecOn with
  | nil => rfl
  | append_singleton s c ih =>
      rw [indentAfter_append, indentAfter_cons, indentAfter_nil, ih, lastLine, lastLine, List.reverse_concat]
      by_cases hc : c = '\n'
      · simp [hc]
      · simp [hc, Bool.and_comm]

/-- At a place in a document an indent is all that stands before it on its line, or it is not. -/
theorem Place.indented_after_start (before : List Char) :
    (Place.start.after before).indented = (lastLine before).all isIndent :=
  (indented_eq .start before).trans (indentAfter_start before)

/-! ## Standing nodes at any depth -/

namespace Standing

variable {p : Place} {ns ms : List Node} {n : Node} {tag : Tag} {kids : List Node}

theorem of_append (h : Standing p (ns ++ ms)) : Standing (p.after (Node.printAll ns)) ms := by
  induction ns generalizing p with
  | nil => simpa [Place.after] using h
  | cons n ns ih =>
      rw [Node.printAll_cons, Place.after_append]
      cases h with
      | text hrest => exact ih (by rwa [Node.print])
      | script hrest => exact ih (by rwa [Node.print])
      | expression _ hrest => exact ih hrest
      | childless _ _ _ _ hrest => exact ih hrest
      | enclosing _ _ _ _ _ hrest => exact ih hrest

/-- The first node stands alone as well. -/
theorem head (h : Standing p (n :: ns)) : Standing p [n] := by
  cases h with
  | text _ => exact .text (.nil _)
  | script _ => exact .script (.nil _)
  | expression hflow _ => exact .expression hflow (.nil _)
  | childless hposition hflow hsource hname _ => exact .childless hposition hflow hsource hname (.nil _)
  | enclosing hposition hflow hsource hname hchildren _ =>
      exact .enclosing hposition hflow hsource hname hchildren (.nil _)

/-- A node at any depth stands behind what is printed in front of it. -/
theorem of_fill {c : Surroundings} (h : Standing p (c.fill n)) : Standing (p.after c.front) [n] := by
  induction c generalizing p with
  | here before behind => exact h.of_append.head
  | inside before tag inner behind ih =>
      have helement := h.of_append
      rw [Surroundings.front, Place.after_append, Place.after_append]
      generalize hfill : inner.fill n = kids at helement
      cases helement with
      | childless _ _ _ _ _ => exact absurd hfill (inner.fill_ne_nil n)
      | enclosing _ _ hsource _ hchildren _ =>
          rw [← hfill] at hchildren
          rw [Tag.around, hsource]
          exact ih hchildren

theorem position (h : Standing p [.element tag kids]) : tag.position = p.position := by
  cases h with
  | childless hposition _ _ _ _ => exact hposition
  | enclosing hposition _ _ _ _ _ => exact hposition

theorem flow (h : Standing p [.element tag kids]) : tag.flow = p.indented := by
  cases h with
  | childless _ hflow _ _ _ => exact hflow
  | enclosing _ hflow _ _ _ _ => exact hflow

theorem opening_ne_nil (h : Standing p [.element tag kids]) : tag.around.1 ≠ [] := by
  cases h with
  | childless _ _ hsource _ _ => simp [Tag.around, hsource]
  | enclosing _ _ hsource hname _ _ =>
      obtain ⟨rest, rfl⟩ := hname
      simp [Tag.around, hsource]

end Standing

/-! ## Two nodes of one document -/

namespace Surroundings

variable {c c' : Surroundings} {n n' : Node}

/-- What stands around a node inside an element that `c` stands around. -/
def within : Surroundings → Tag → Surroundings → Surroundings
  | here before behind, tag, inner => inside before tag inner behind
  | inside before outer c behind, tag, inner => inside before outer (c.within tag inner) behind

theorem path_within (c : Surroundings) (tag : Tag) (inner : Surroundings) :
    (c.within tag inner).path = c.path ++ inner.path := by
  induction c with
  | here before behind => rfl
  | inside before outer c behind ih => simp [within, path, ih]

theorem front_within (c : Surroundings) (tag : Tag) (inner : Surroundings) :
    (c.within tag inner).front = c.front ++ (tag.around.1 ++ inner.front) := by
  induction c with
  | here before behind => rfl
  | inside before outer c behind ih => simp [within, front, ih]

/-- A node is printed ahead of another one that is not inside it. -/
structure Ahead (c : Surroundings) (n : Node) (c' : Surroundings) : Prop where
  printed : c.front ++ n.print <+: c'.front
  outside : ¬ c.path <+: c'.path
  around : ¬ c'.path <+: c.path

theorem Ahead.inside {before : List Node} {behind behind' : List Node} (tag : Tag) (h : c.Ahead n c') :
    (inside before tag c behind).Ahead n (.inside before tag c' behind') := by
  obtain ⟨hprinted, houtside, haround⟩ := h
  refine ⟨?_, ?_, ?_⟩
  · simpa [front] using hprinted
  · simpa [path] using houtside
  · simpa [path] using haround

/-- The nodes in front of the gap in the list that the gap is in or leads into. -/
def before : Surroundings → List Node
  | here before _ => before
  | inside before _ _ _ => before

/-- The nodes behind it. -/
def behind : Surroundings → List Node
  | here _ behind => behind
  | inside _ _ _ behind => behind

/-- The node of that list that is the gap or has it inside, when the gap is filled. -/
def holder : Surroundings → Node → Node
  | here _ _, n => n
  | inside _ tag inner _, n => .element tag (inner.fill n)

theorem fill_eq (c : Surroundings) (n : Node) : c.fill n = c.before ++ c.holder n :: c.behind := by
  cases c with
  | here before behind => rfl
  | inside before tag inner behind => rfl

/-- A node is ahead of those that are, or stand inside, a later node of the list. -/
theorem ahead_of_before {mid : List Node} (h : c'.before = c.before ++ c.holder n :: mid) : c.Ahead n c' := by
  have hpath : ∀ c : Surroundings, ∃ below, c.path = c.before.length :: below := by
    intro c
    cases c with
    | here before behind => exact ⟨[], rfl⟩
    | inside before tag inner behind => exact ⟨inner.path, rfl⟩
  obtain ⟨below, hc⟩ := hpath c
  obtain ⟨below', hc'⟩ := hpath c'
  have hlength : c.before.length ≠ c'.before.length := by simp [h]
  have hfront : Node.printAll c'.before <+: c'.front := by
    cases c' with
    | here before behind => exact List.prefix_rfl
    | inside before tag inner behind => exact List.prefix_append _ _
  have hprint : c.front ++ n.print <+: Node.printAll (c.before ++ [c.holder n]) := by
    cases c with
    | here before behind => simp [front, Surroundings.before, holder]
    | inside before tag inner behind => exact ⟨_, (print_fill (.inside before tag inner []) n).symm⟩
  refine ⟨hprint.trans (.trans ?_ hfront), ?_, ?_⟩
  · rw [h]
    simp
  · rw [hc, hc', List.cons_prefix_cons]
    exact fun hprefix => hlength hprefix.1
  · rw [hc, hc', List.cons_prefix_cons]
    exact fun hprefix => hlength hprefix.1.symm

theorem append_cons_cases {u v u' v' : List Node} (h : u ++ n :: v = u' ++ n' :: v') :
    (u = u' ∧ n = n' ∧ v = v') ∨ (∃ mid, u' = u ++ n :: mid) ∨ ∃ mid, u = u' ++ n' :: mid := by
  rcases List.append_eq_append_iff.mp h with ⟨mid, rfl, hmid⟩ | ⟨mid, rfl, hmid⟩
  · cases mid with
    | nil =>
        obtain ⟨rfl, rfl⟩ := List.cons.inj hmid
        exact .inl ⟨(List.append_nil u).symm, rfl, rfl⟩
    | cons m mid =>
        obtain ⟨rfl, _⟩ := List.cons.inj hmid
        exact .inr (.inl ⟨mid, rfl⟩)
  · cases mid with
    | nil =>
        obtain ⟨rfl, rfl⟩ := List.cons.inj hmid
        exact .inl ⟨List.append_nil u', rfl, rfl⟩
    | cons m mid =>
        obtain ⟨rfl, _⟩ := List.cons.inj hmid
        exact .inr (.inr ⟨mid, rfl⟩)

/-- How two nodes of one list lie to each other, each of them at any depth. -/
inductive Related (c : Surroundings) (n : Node) (c' : Surroundings) (n' : Node) : Prop
  | same (hc : c' = c) (hn : n' = n)
  | inside {tag : Tag} {inner : Surroundings} (hc : c' = c.within tag inner) (hn : n = .element tag (inner.fill n'))
  | around {tag : Tag} {inner : Surroundings} (hc : c = c'.within tag inner) (hn : n' = .element tag (inner.fill n))
  | ahead (h : c.Ahead n c')
  | behind (h : c'.Ahead n' c)

/-- Nodes among the children of one element lie to each other as they do there. -/
theorem Related.deeper {before behind : List Node} (tag : Tag) (h : Related c n c' n') :
    Related (.inside before tag c behind) n (.inside before tag c' behind) n' := by
  cases h with
  | same hc hn => exact .same (by rw [hc]) hn
  | inside hc hn => exact .inside (by rw [hc, within]) hn
  | around hc hn => exact .around (by rw [hc, within]) hn
  | ahead h => exact .ahead (h.inside tag)
  | behind h => exact .behind (h.inside tag)

theorem related_of_fill (h : c.fill n = c'.fill n') : Related c n c' n' := by
  induction c generalizing c' with
  | here before behind =>
      rw [fill_eq, fill_eq] at h
      rcases append_cons_cases h with ⟨hbefore, hholder, hbehind⟩ | ⟨mid, hmid⟩ | ⟨mid, hmid⟩
      · obtain rfl : before = c'.before := hbefore
        obtain rfl : behind = c'.behind := hbehind
        cases c' with
        | here before behind => exact .same rfl hholder.symm
        | inside before tag inner behind => exact .inside rfl hholder
      · exact .ahead (ahead_of_before hmid)
      · exact .behind (ahead_of_before hmid)
  | inside before tag inner behind ih =>
      rw [fill_eq, fill_eq] at h
      rcases append_cons_cases h with ⟨hbefore, hholder, hbehind⟩ | ⟨mid, hmid⟩ | ⟨mid, hmid⟩
      · obtain rfl : before = c'.before := hbefore
        obtain rfl : behind = c'.behind := hbehind
        cases c' with
        | here before behind => exact .around rfl hholder.symm
        | inside before tag' inner' behind =>
            obtain ⟨rfl, hfill⟩ := Node.element.inj hholder
            exact (ih hfill).deeper tag
      · exact .ahead (ahead_of_before hmid)
      · exact .behind (ahead_of_before hmid)

end Surroundings

/-! ## Documents and errors -/

/-- The offset behind the text of an element. -/
def Tag.stop (tag : Tag) (kids : List Node) : Nat :=
  tag.position.offset + byteSize (Node.print (.element tag kids))

/-- The coordinates in a document, at any depth, are exact. -/
structure Document.Located (d : Document) (source : List Char) : Prop where
  /-- The position of an element counts the text in front of it, and there it stands as it is printed. -/
  element : ∀ {c : Surroundings} {tag : Tag} {kids : List Node}, d.children = c.fill (.element tag kids) →
    source = c.front ++ Node.print (.element tag kids) ++ c.back ∧ tag.position.Counts c.front ∧
      tag.flow = (lastLine c.front).all isIndent
  /-- So do expressions. -/
  expression : ∀ {c : Surroundings} {value : List Char} {flow : Bool}, d.children = c.fill (.expression value flow) →
    source = c.front ++ Node.print (.expression value flow) ++ c.back ∧ flow = (lastLine c.front).all isIndent
  /-- The text of an element inside another one lies within the text of that, behind its start. -/
  nested : ∀ {c c' : Surroundings} {tag tag' : Tag} {kids kids' : List Node},
    d.children = c.fill (.element tag kids) → d.children = c'.fill (.element tag' kids') →
    c.path <+: c'.path → c.path ≠ c'.path →
      tag.position.offset < tag'.position.offset ∧ tag'.stop kids' ≤ tag.stop kids
  /-- The texts of two elements of which none is inside the other do not overlap. -/
  disjoint : ∀ {c c' : Surroundings} {tag tag' : Tag} {kids kids' : List Node},
    d.children = c.fill (.element tag kids) → d.children = c'.fill (.element tag' kids') →
    ¬ c.path <+: c'.path → ¬ c'.path <+: c.path →
      tag.stop kids ≤ tag'.position.offset ∨ tag'.stop kids' ≤ tag.position.offset

namespace Document

variable {source : List Char} {d : Document} {c c' : Surroundings} {tag tag' : Tag} {kids kids' : List Node}

theorem standing_of_parse {n : Node} (h : parse source = .ok d) (hn : d.children = c.fill n) :
    Standing (Place.start.after c.front) [n] :=
  (hn ▸ parse_standing h).of_fill

theorem source_of_parse {n : Node} (h : parse source = .ok d) (hn : d.children = c.fill n) :
    source = c.front ++ n.print ++ c.back := by
  rw [← parse_print h, Document.print, hn, c.print_fill]

theorem position_of_parse (h : parse source = .ok d) (hn : d.children = c.fill (.element tag kids)) :
    tag.position.Counts c.front := by
  rw [(standing_of_parse h hn).position]
  exact Position.counts_of_place c.front

theorem nested_of_parse (h : parse source = .ok d) (hn : d.children = c.fill (.element tag kids))
    (hn' : d.children = c'.fill (.element tag' kids')) (hinside : c.path <+: c'.path) (hne : c.path ≠ c'.path) :
    tag.position.offset < tag'.position.offset ∧ tag'.stop kids' ≤ tag.stop kids := by
  have hoffset := (position_of_parse h hn).offset
  have hoffset' := (position_of_parse h hn').offset
  cases Surroundings.related_of_fill (hn.symm.trans hn') with
  | same hc _ => exact absurd (congrArg Surroundings.path hc).symm hne
  | @inside t inner hc hnode =>
      obtain ⟨rfl, hkids⟩ := Node.element.inj hnode
      -- The opening tag is not empty, so what is inside comes behind the start.
      have hopening : 0 < byteSize tag.around.1 :=
        Nat.pos_of_ne_zero fun hzero => (standing_of_parse h hn).opening_ne_nil (eq_nil_of_byteSize hzero)
      have hprint : Node.print (.element tag kids) =
          tag.around.1 ++ (inner.front ++ Node.print (.element tag' kids') ++ inner.back) ++ tag.around.2 := by
        have hchild : kids.isEmpty = false := by
          rw [hkids]
          exact List.isEmpty_eq_false_iff.mpr (inner.fill_ne_nil _)
        rw [Node.print, hchild, Tag.print_around, hkids, inner.print_fill]
      rw [hc, Surroundings.front_within, byteSize_append, byteSize_append] at hoffset'
      rw [Tag.stop, Tag.stop, hoffset, hoffset', hprint]
      simp only [byteSize_append]
      omega
  | @around t inner hc _ =>
      rw [hc, Surroundings.path_within] at hinside hne
      have hlength := hinside.length_le
      rw [List.length_append] at hlength
      have hnil : inner.path = [] := List.eq_nil_of_length_eq_zero (by omega)
      exact absurd (by rw [hnil, List.append_nil]) hne
  | ahead hahead => exact absurd hinside hahead.outside
  | behind hahead => exact absurd hinside hahead.around

theorem disjoint_of_parse (h : parse source = .ok d) (hn : d.children = c.fill (.element tag kids))
    (hn' : d.children = c'.fill (.element tag' kids')) (houtside : ¬ c.path <+: c'.path)
    (haround : ¬ c'.path <+: c.path) :
    tag.stop kids ≤ tag'.position.offset ∨ tag'.stop kids' ≤ tag.position.offset := by
  have hoffset := (position_of_parse h hn).offset
  have hoffset' := (position_of_parse h hn').offset
  cases Surroundings.related_of_fill (hn.symm.trans hn') with
  | same hc _ =>
      rw [hc] at houtside
      exact absurd List.prefix_rfl houtside
  | inside hc _ =>
      rw [hc, Surroundings.path_within] at houtside
      exact absurd (List.prefix_append _ _) houtside
  | around hc _ =>
      rw [hc, Surroundings.path_within] at haround
      exact absurd (List.prefix_append _ _) haround
  | ahead hahead =>
      obtain ⟨rest, hrest⟩ := hahead.printed
      rw [← hrest, byteSize_append, byteSize_append] at hoffset'
      rw [Tag.stop]
      omega
  | behind hahead =>
      obtain ⟨rest, hrest⟩ := hahead.printed
      rw [← hrest, byteSize_append, byteSize_append] at hoffset
      rw [Tag.stop, Tag.stop]
      omega

end Document

/-- **Positions are exact.**  The elements and expressions of a document that was read have the coordinates of the text
they stand for, and so their texts are nested or disjoint as they are.  A text that is no document has its error reported
at a place of it, where an unexpected character is the next one. -/
theorem positions_exact (source : List Char) :
    (∀ d, parse source = .ok d → d.Located source) ∧
      ∀ e, parse source = .error e →
        ∃ before behind, source = before ++ behind ∧ e.position.Counts before ∧
          ∀ c expected, e.cause = .unexpected c expected → behind.head? = some c := by
  constructor
  · intro d h
    refine ⟨fun hn => ⟨?_, ?_, ?_⟩, fun hn => ⟨?_, ?_⟩, Document.nested_of_parse h, Document.disjoint_of_parse h⟩
    · exact Document.source_of_parse h hn
    · exact Document.position_of_parse h hn
    · rw [(Document.standing_of_parse h hn).flow, Place.indented_after_start]
    · exact Document.source_of_parse h hn
    · cases Document.standing_of_parse h hn with
      | expression hflow _ => rw [hflow, Place.indented_after_start]
  · intro e h
    obtain ⟨before, behind, hsource, hposition, hfound⟩ := parse_error h
    refine ⟨before, behind, hsource, ?_, hfound⟩
    rw [hposition]
    exact Position.counts_after_start before

/-- Two elements side by side, one of them around a third, behind a line with a character of two bytes; and such a
character where an attribute is expected. -/
theorem positions_exact_nested :
    (∃ (d : Document) (c₁ c₂ c₃ : Surroundings) (a b z : Tag), parse "é\n <A><B /></A><C />".toList = .ok d ∧
      d.children = c₁.fill (.element a [.element b []]) ∧ d.children = c₂.fill (.element b []) ∧
      d.children = c₃.fill (.element z []) ∧ a.position.Counts "é\n ".toList ∧ a.flow = true ∧
      a.position.offset < b.position.offset ∧ b.stop [] ≤ a.stop [.element b []] ∧
      (a.stop [.element b []] ≤ z.position.offset ∨ z.stop [] ≤ a.position.offset)) ∧
    ∃ e before behind, parse "a\n<A é>".toList = .error e ∧ "a\n<A é>".toList = before ++ behind ∧
      e.position.Counts before ∧ behind.head? = some 'é' := by
  constructor
  · obtain ⟨a, ha⟩ : ∃ a : Tag, a = ⟨"A".toList, [], true, ⟨2, 2, 4⟩, some ⟨"<A>".toList, some "</A>".toList⟩⟩ :=
      ⟨_, rfl⟩
    obtain ⟨b, hb⟩ : ∃ b : Tag, b = ⟨"B".toList, [], false, ⟨2, 5, 7⟩, some ⟨"<B />".toList, none⟩⟩ := ⟨_, rfl⟩
    obtain ⟨z, hz⟩ : ∃ z : Tag, z = ⟨"C".toList, [], false, ⟨2, 14, 16⟩, some ⟨"<C />".toList, none⟩⟩ := ⟨_, rfl⟩
    have hd : parse "é\n <A><B /></A><C />".toList =
        .ok ⟨[.text "é\n ".toList, .element a [.element b []], .element z []]⟩ := by
      subst ha hb hz
      rfl
    obtain ⟨helement, _, hnested, hdisjoint⟩ := (positions_exact _).1 _ hd
    -- The paths of the three elements are `[1]`, `[1, 0]` and `[2]`.
    have ha₁ := Surroundings.fill_eq (.here [.text "é\n ".toList] [.element z []]) (.element a [.element b []])
    have hb₁ := Surroundings.fill_eq (.inside [.text "é\n ".toList] a (.here [] []) [.element z []]) (.element b [])
    have hz₁ := Surroundings.fill_eq (.here [.text "é\n ".toList, .element a [.element b []]] []) (.element z [])
    have hinside := hnested ha₁.symm hb₁.symm (by simp [Surroundings.path]) (by simp [Surroundings.path])
    refine ⟨_, _, _, _, a, b, z, hd, ha₁.symm, hb₁.symm, hz₁.symm, (helement ha₁.symm).2.1, by rw [ha], hinside.1,
      hinside.2, ?_⟩
    exact hdisjoint ha₁.symm hz₁.symm (by simp [Surroundings.path]) (by simp [Surroundings.path])
  · have he : parse "a\n<A é>".toList = .error ⟨.unexpected 'é' "an attribute, \x60/>\x60 or \x60>\x60", ⟨2, 4, 5⟩⟩ :=
      rfl
    obtain ⟨before, behind, hsource, hposition, hfound⟩ := (positions_exact _).2 _ he
    exact ⟨_, before, behind, he, hsource, hposition, hfound _ _ rfl⟩

end Markup
end StoryDocs
