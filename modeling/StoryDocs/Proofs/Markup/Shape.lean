import StoryDocs.Proofs.Markup.Canonical
import StoryDocs.Proofs.Markup.Tags

/-!
# The shape of documents

What the reader makes of a text is canonical.  Prose is never empty and stands next to no other prose, script blocks stand
between the lines of a document and nowhere else, an element that closes itself has no children, and every other element
ends with a closing tag of its own name.
-/

namespace StoryDocs
namespace Markup

open Text

/-! ## Closing tags -/

/-- A text is a closing tag: its marks around a name, with blanks at both ends of that. -/
def IsClosingTag (name text : List Char) : Prop :=
  ∃ gap gap' : List Char, gap.all isAsciiBlank = true ∧ gap'.all isAsciiBlank = true ∧
    text = "</".toList ++ (gap ++ name ++ gap' ++ ['>'])

/-- Behind its marks a closing tag has a name between blanks, up to the bracket. -/
theorem readClosingTag_split {s name : List Char} {n : Nat} (h : readClosingTag s = .ok ⟨name, n⟩) :
    ∃ gap gap' rest : List Char, gap.all isAsciiBlank = true ∧ gap'.all isAsciiBlank = true ∧
      s.drop 2 = gap ++ name ++ gap' ++ ['>'] ++ rest ∧ n = (gap ++ name ++ gap' ++ ['>']).length + 2 := by
  have hblank : ∀ t : List Char, (t.takeWhile isAsciiBlank).all isAsciiBlank = true := by
    intro t
    exact List.all_takeWhile
  simp only [readClosingTag] at h
  split at h
  · rename_i rest hrest
    rw [Nat.add_comm (blankLength _) 2, ← List.drop_drop] at hrest h
    generalize s.drop 2 = t at hrest h ⊢
    cases h
    have hgap := List.prefix_append_drop (List.takeWhile_prefix (l := t) isAsciiBlank)
    generalize hinner : t.drop (blankLength t) = inner at hrest ⊢
    have hname := List.prefix_append_drop (List.takeWhile_prefix (l := inner) isNameChar)
    generalize htail : inner.drop (inner.takeWhile isNameChar).length = tail at hrest hname ⊢
    have hend := List.prefix_append_drop (List.takeWhile_prefix (l := tail) isAsciiBlank)
    refine ⟨t.takeWhile isAsciiBlank, tail.takeWhile isAsciiBlank, rest, hblank t, hblank tail, ?_, ?_⟩
    · have hsplit : t = t.takeWhile isAsciiBlank ++ inner := by rwa [← hinner]
      rw [show tail.drop (tail.takeWhile isAsciiBlank).length = '>' :: rest from hrest] at hend
      calc t = t.takeWhile isAsciiBlank ++ inner := hsplit
        _ = t.takeWhile isAsciiBlank ++ (inner.takeWhile isNameChar ++ tail) := congrArg _ hname
        _ = t.takeWhile isAsciiBlank ++ (inner.takeWhile isNameChar ++
              (tail.takeWhile isAsciiBlank ++ '>' :: rest)) := congrArg _ (congrArg _ hend)
        _ = _ := by simp
    · simp only [blankLength, List.length_append, List.length_singleton]
      omega
  · cases h

/-- What is read as a closing tag is one. -/
theorem Tagged.isClosingTag {name text rest : List Char} (h : Tagged (.closing name) text rest) :
    IsClosingTag name text := by
  obtain ⟨gap, gap', behind, hgap, hgap', hdrop, hlength⟩ := readClosingTag_split h.readClosing
  obtain ⟨t, ht⟩ := List.head?_eq_some_iff.mp h.bracket
  have hread := h.read
  rw [ht, List.cons_append] at hread
  obtain ⟨u, hu⟩ := List.head?_eq_some_iff.mp (Piece.ofBracket_eq_closing_iff.mp hread).1
  have hwhole : text ++ rest = "</".toList ++ (gap ++ name ++ gap' ++ ['>']) ++ behind := by
    rw [ht, List.cons_append, hu] at hdrop ⊢
    rw [List.append_assoc, ← hdrop]
    rfl
  exact ⟨gap, gap', hgap, hgap', List.append_inj_left hwhole hlength⟩

/-! ## Script blocks -/

/-- A script block has the whole keyword that it starts with. -/
theorem keyword_prefix_script {s : List Char} (h : startsScript s = true) :
    "import".toList <+: s.take (scriptLength s) ∨ "export".toList <+: s.take (scriptLength s) := by
  have hkeyword : ∀ w rest : List Char, w.all isPlain = true → s = w ++ rest → w <+: s.take (scriptLength s) := by
    rintro w rest hw rfl
    have hlength : w.length ≤ scriptLength (w ++ rest) := by
      rw [scriptLength, scriptLengthFrom_plain hw (by simp; omega)]
      exact Nat.le_add_left _ _
    exact List.prefix_take_iff.mpr ⟨List.prefix_append w rest, hlength⟩
  obtain ⟨rest, himport | hexport, _⟩ := startsScript_iff.mp h
  · exact .inl (hkeyword _ rest (by decide) himport)
  · exact .inr (hkeyword _ rest (by decide) hexport)

namespace Reads

variable {outside line : Bool} {ns ms : List Node} {n : Node} {value rest : List Char}

theorem tail (h : Reads outside line (n :: ns) rest) : Reads outside (lineAfter line n.print) ns rest := by
  cases h with
  | text _ _ hrest => rwa [Node.print]
  | script _ _ hrest => rwa [Node.print]
  | expression _ hrest => rwa [Node.print, lineAfter_concat]
  | childless _ hopening hrest => rwa [lineAfter_of_bracket hopening.opening_getLast?]
  | enclosing _ hprint _ _ hclosing hrest =>
      rwa [hprint, lineAfter_append, lineAfter_of_bracket hclosing.closing_getLast?]

theorem of_append (h : Reads outside line (ns ++ ms) rest) :
    Reads outside (lineAfter line (Node.printAll ns)) ms rest := by
  induction ns generalizing line with
  | nil => simpa using h
  | cons n ns ih =>
      rw [Node.printAll_cons, lineAfter_append]
      exact ih h.tail

/-- A script block starts a line outside all elements with its keyword, and there is a gap behind it. -/
theorem script_block (h : Reads outside line (.script value :: ns) rest) :
    line = true ∧ ("import".toList <+: value ∨ "export".toList <+: value) ∧ Gap (Node.printAll ns ++ rest) := by
  cases h with
  | script hstart htaken _ =>
      have hkeyword := keyword_prefix_script hstart
      have hgap := scriptLength_gap (value ++ (Node.printAll ns ++ rest))
      have hsplit := List.take_append_drop (scriptLength (value ++ (Node.printAll ns ++ rest)))
        (value ++ (Node.printAll ns ++ rest))
      rw [htaken] at hkeyword hsplit
      rw [List.append_cancel_left hsplit] at hgap
      exact ⟨rfl, hkeyword, hgap⟩

end Reads

/-! ## Canonical documents -/

/-- A node inside a document that is as the reader makes it: prose is not empty, child lists never have prose next to
prose, elements that close themselves have no children, and the others have a closing tag with their name. -/
inductive Node.Canonical : Node → Prop
  | text {value : List Char} (hne : value ≠ []) : Canonical (.text value)
  | expression (value : List Char) (flow : Bool) : Canonical (.expression value flow)
  | childless {tag : Tag} {opening : List Char} (hsource : tag.source = some ⟨opening, none⟩) :
      Canonical (.element tag [])
  | enclosing {tag : Tag} {opening closing : List Char} {children : List Node}
      (hsource : tag.source = some ⟨opening, some closing⟩) (hclosing : IsClosingTag tag.name closing)
      (hapart : children.IsChain Apart) (hchildren : ∀ n ∈ children, Canonical n) : Canonical (.element tag children)

/-- A document as the reader makes it.  Only its own list of nodes has script blocks, each of them at the start of a line,
with a keyword in front and a blank line, or nothing, behind. -/
structure Document.Canonical (d : Document) : Prop where
  apart : d.children.IsChain Node.Apart
  nodes : ∀ n ∈ d.children, (∃ value, n = .script value) ∨ n.Canonical
  scripts : ∀ {before : List Node} {value : List Char} {behind : List Node},
    d.children = before ++ .script value :: behind →
      (Node.printAll before = [] ∨ (Node.printAll before).getLast? = some '\n') ∧
        ("import".toList <+: value ∨ "export".toList <+: value) ∧ Gap (Node.printAll behind)

/-- Nodes that were read are canonical; script blocks stand outside all elements. -/
theorem Reads.canonical {outside line : Bool} {ns : List Node} {rest : List Char} (h : Reads outside line ns rest)
    (hpristine : ∀ n ∈ ns, n.Pristine) (hparted : ∀ n ∈ ns, n.Parted) :
    ∀ n ∈ ns, (outside = true ∧ ∃ value, n = .script value) ∨ n.Canonical := by
  induction h with
  | nil outside line rest => simp
  | text hne _ _ ih =>
      rw [List.forall_mem_cons] at hpristine hparted ⊢
      exact ⟨.inr (.text hne), ih hpristine.2 hparted.2⟩
  | @script value _ _ _ _ _ ih =>
      rw [List.forall_mem_cons] at hpristine hparted ⊢
      exact ⟨.inl ⟨rfl, value, rfl⟩, ih hpristine.2 hparted.2⟩
  | expression _ _ ih =>
      rw [List.forall_mem_cons] at hpristine hparted ⊢
      exact ⟨.inr (.expression _ _), ih hpristine.2 hparted.2⟩
  | childless hsource _ _ ih =>
      rw [List.forall_mem_cons] at hpristine hparted ⊢
      refine ⟨.inr ?_, ih hpristine.2 hparted.2⟩
      cases hpristine.1 with
      | childless hnone => exact .childless hnone
      | enclosing hsome _ => exact absurd (congrArg TagSource.closing (hsource _ hsome)) (by simp)
  | @enclosing outside line tag children opening closing rest ns hsource _ _ _ hclosing _ ihchildren ih =>
      rw [List.forall_mem_cons] at hpristine hparted ⊢
      refine ⟨.inr ?_, ih hpristine.2 hparted.2⟩
      cases hpristine.1 with
      | childless hnone => exact absurd (congrArg TagSource.closing (hsource _ hnone)) (by simp)
      | enclosing hsome hchildren =>
          obtain rfl := Option.some.inj (congrArg TagSource.closing (hsource _ hsome))
          cases hparted.1 with
          | element hapart hinner =>
              refine .enclosing hsome hclosing.isClosingTag hapart fun n hn => ?_
              exact (ihchildren hchildren hinner n hn).resolve_left fun hscript => Bool.false_ne_true hscript.1

/-- **Parsed documents are canonical.**  A text is read as a document of canonical shape at every depth, in which script
blocks stand at the top, between lines of the text. -/
theorem parse_canonical {source : List Char} {d : Document} (h : parse source = .ok d) :
    d.print = source ∧ d.Canonical := by
  have hreads := parse_reads h
  obtain ⟨hapart, hparted⟩ := parse_parted h
  refine ⟨parse_print h, hapart, fun n hn => ?_, fun {before value behind} hchildren => ?_⟩
  · exact (hreads.canonical (parse_pristine h) hparted n hn).imp_left And.right
  · rw [hchildren] at hreads
    obtain ⟨hline, hkeyword, hgap⟩ := hreads.of_append.script_block
    rw [List.append_nil] at hgap
    exact ⟨eq_nil_or_feed_of_lineAfter hline, hkeyword, hgap⟩

/-- A script block, prose, and an element with blanks in its closing tag around one that closes itself. -/
theorem parse_canonical_nested :
    ∃ d, parse "import a\n\n<A>b<E /></ A >".toList = .ok d ∧ d.children.length = 3 ∧
      d.print = "import a\n\n<A>b<E /></ A >".toList ∧ d.Canonical := by
  obtain ⟨d, hd, hlength⟩ : ∃ d, parse "import a\n\n<A>b<E /></ A >".toList = .ok d ∧ d.children.length = 3 :=
    ⟨_, rfl, rfl⟩
  exact ⟨d, hd, hlength, parse_canonical hd⟩

end Markup
end StoryDocs
