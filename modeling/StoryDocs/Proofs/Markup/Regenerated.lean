import StoryDocs.Proofs.Layout.Whitespace
import StoryDocs.Proofs.Markup.Names
import StoryDocs.Proofs.Outcome
import StoryDocs.Proofs.Script.Tokens

/-!
# Tags that are written anew

An element that loses its children, or gets some where it closed itself, is printed with a new tag.  The attributes
come back from that tag when it is read, unless a group in braces ends somewhere else on its one line than it did in
the source, or the tag is taken for a link.
-/

namespace StoryDocs
namespace Markup

open Text Layout

variable {name rest : List Char} {attributes : List Attribute} {a : Attribute} {selfClosing : Bool} {tag : Tag}

/-! ## Links -/

/-- Whether a name in angle brackets is a link: it starts with a scheme of two to 32 characters and a colon. -/
def IsLinkName (name : List Char) : Prop :=
  ∃ c scheme target, name = c :: (scheme ++ ':' :: target) ∧ c.isAlpha = true ∧ scheme.all isSchemeChar = true ∧
    scheme ≠ [] ∧ scheme.length ≤ 31

theorem isLinkName_cons_iff {c : Char} : IsLinkName (c :: name) ↔ c.isAlpha = true ∧
    name.takeWhile isSchemeChar ≠ [] ∧ (name.takeWhile isSchemeChar).length ≤ 31 ∧
    ∃ target, name.drop (name.takeWhile isSchemeChar).length = ':' :: target := by
  constructor
  · rintro ⟨d, scheme, target, heq, hd, hscheme, hne, hlength⟩
    obtain ⟨rfl, rfl⟩ := List.cons.inj heq
    have htaken : (scheme ++ ':' :: target).takeWhile isSchemeChar = scheme := by
      rw [List.takeWhile_append_of_pos (List.all_eq_true.mp hscheme), List.takeWhile_cons_of_neg (by decide),
        List.append_nil]
    rw [htaken]
    exact ⟨hd, hne, hlength, target, List.drop_left⟩
  · rintro ⟨hc, hne, hlength, target, hdrop⟩
    refine ⟨c, name.takeWhile isSchemeChar, target, ?_, hc, List.all_takeWhile, hne, hlength⟩
    have hsplit := List.take_append_drop (name.takeWhile isSchemeChar).length name
    rw [← List.prefix_iff_eq_take.mp (List.takeWhile_prefix isSchemeChar), hdrop] at hsplit
    rw [hsplit]

/-- Whether a character can stand in a link behind its scheme. -/
theorem isTarget_of_isNameChar {c : Char} (h : isNameChar c = true) :
    (!isBlank c && c != '<' && c != '>') = true := by
  have hblank := Script.isBlank_eq_false_of isNameChar (by decide) h
  have hleft : c ≠ '<' := by
    rintro rfl
    cases h
  have hright : c ≠ '>' := by
    rintro rfl
    cases h
  simp [hblank, hleft, hright]

/-- The name of a tag is taken for a link if it is that of one and the tag ends right behind it. -/
theorem autolinkLength?_tag {c : Char} (hname : IsTagName name attributes) (hc : c = ' ' ∨ c = '>') :
    autolinkLength? ('<' :: (name ++ c :: rest)) = none ↔ ¬ (c = '>' ∧ IsLinkName name) := by
  have hstop : isSchemeChar c = false ∧ c.isAlpha = false ∧ c ≠ ':' := by
    rcases hc with rfl | rfl
    · decide
    · decide
  have hscheme : schemeLinkLength? (name ++ c :: rest) = none ↔ ¬ (c = '>' ∧ IsLinkName name) := by
    rcases hname with ⟨d, tail, rfl, hd, htail⟩ | ⟨rfl, _⟩
    · obtain ⟨htaken, hdrop⟩ := takeWhile_stop hstop.1 tail rest
      rw [isLinkName_cons_iff, List.cons_append, schemeLinkLength?]
      dsimp only
      rw [htaken, hdrop]
      split
      · -- There is no scheme of the right length.
        rename_i hshort
        refine iff_of_true rfl ?_
        rintro ⟨_, _, hne, hlength, _⟩
        simp [hd, hne] at hshort
        omega
      · rename_i hlong
        simp only [hd, Bool.not_true, Bool.false_or, Bool.or_eq_true, List.isEmpty_iff, decide_eq_true_eq, not_or,
          Nat.not_lt] at hlong
        cases hleft : tail.drop (tail.takeWhile isSchemeChar).length with
        | nil =>
            rw [List.nil_append]
            split
            · rename_i t heq
              exact absurd (List.cons.inj heq).1 hstop.2.2
            · refine iff_of_true rfl ?_
              rintro ⟨_, _, _, _, target, htarget⟩
              cases htarget
        | cons e left =>
            rw [List.cons_append]
            split
            · rename_i t heq
              obtain ⟨rfl, rfl⟩ := List.cons.inj heq
              have htarget : ∀ b ∈ left, (!isBlank b && b != '<' && b != '>') = true := by
                intro b hb
                have hmem : b ∈ tail := List.mem_of_mem_drop (by rw [hleft]; exact List.mem_cons_of_mem _ hb)
                exact isTarget_of_isNameChar (List.all_eq_true.mp htail b hmem)
              have hend : (!isBlank c && c != '<' && c != '>') = false := by
                rcases hc with rfl | rfl
                · decide
                · decide
              rw [List.takeWhile_append_of_pos htarget,
                List.takeWhile_cons_of_neg (by rw [hend]; exact Bool.false_ne_true), List.append_nil, List.drop_left, List.head?_cons]
              simp only [hd, hlong.1, hlong.2, ne_eq, not_false_eq_true, true_and]
              split
              · rename_i hbracket
                refine iff_of_false (by simp) ?_
                exact not_not_intro ⟨by simpa using hbracket, left, rfl⟩
              · rename_i hbracket
                exact iff_of_true rfl fun h => hbracket (by rw [h.1]; rfl)
            · rename_i hcolon
              refine iff_of_true rfl ?_
              rintro ⟨_, _, _, _, target, htarget⟩
              exact hcolon _ (by rw [(List.cons.inj htarget).1])
    · simp [schemeLinkLength?, hstop.2.1, IsLinkName]
  rw [autolinkLength?, mailLinkLength?_name hname.mail_not_mem hc, Option.or_none, Option.map_eq_none_iff]
  exact hscheme

/-! ## Attributes that come back -/

namespace ReadsAttribute

theorem unique {r r' : Read Attribute} {s : List Char} (h : ReadsAttribute s r) (h' : ReadsAttribute s r') :
    r = r' := by
  have hapart : s.head? = some '\x7b' → ¬ ∃ c, s.head? = some c ∧ startsName c = true := by
    rintro hbrace ⟨c, hhead, hc⟩
    rw [hbrace] at hhead
    obtain rfl := Option.some.inj hhead
    cases hc
  rcases h with ⟨hbrace, hread⟩ | ⟨hname, hread⟩
  · rcases h' with ⟨_, hread'⟩ | ⟨hname', _⟩
    · exact Except.ok.inj (hread.symm.trans hread')
    · exact absurd hname' (hapart hbrace)
  · rcases h' with ⟨hbrace', _⟩ | ⟨_, hread'⟩
    · exact absurd hname (hapart hbrace')
    · exact Except.ok.inj (hread.symm.trans hread')

/-- A group is cut off the text at its own brace. -/
theorem exists_group {s : List Char} {n : Nat} (h : groupLength? ('\x7b' :: s) = some n) :
    ∃ inner back, inner = s.take (n - 2) ∧ s = inner ++ '\x7d' :: back ∧ n = inner.length + 2 := by
  have htaken := groupLength?_take h
  obtain ⟨body, hbody, hn⟩ := (groupLength?_closes h).take_eq
  have hsplit := List.take_append_drop n ('\x7b' :: s)
  have hlength := congrArg List.length (hbody.symm.trans htaken)
  simp only [List.length_append, List.length_cons, List.length_nil] at hlength
  rw [htaken, List.cons_append, List.cons_append, List.append_assoc, List.singleton_append] at hsplit
  exact ⟨s.take (n - 2), _, rfl, (List.cons.inj hsplit).2.symm, by omega⟩

/-- Spread attributes that are read back end at their own brace. -/
theorem groupLength?_of_readSpread {source : List Char} {n : Nat}
    (h : readSpread ('\x7b' :: ("...".toList ++ source ++ '\x7d' :: rest)) = .ok ⟨.spread source, n⟩) :
    groupLength? ('\x7b' :: ("...".toList ++ source ++ '\x7d' :: rest)) = some (source.length + 5) := by
  rw [readSpread] at h
  split at h
  · cases h
  rename_i group hread
  rw [readGroup] at hread
  split at hread
  · rename_i k hgroup
    cases hread
    split at h
    · rename_i behind hfound
      obtain ⟨hspread, _⟩ : trim behind = source ∧ k = n := by simpa using h
      obtain ⟨inner, back, hinner, hsplit, hk⟩ := exists_group hgroup
      rw [List.drop_succ_cons, List.drop_zero, ← hinner, dropLead?_eq_some_iff] at hfound
      have hdots : "...".toList.length = 3 := rfl
      have hvisible : visible inner = visible "...".toList ++ visible source := by
        rw [← visible_trim inner, hfound, visible_append, ← hspread, visible_trim]
      have hlength : source.length + 3 ≤ inner.length := by
        have hbehind := length_trim_le behind
        have htrimmed := length_trim_le inner
        rw [hspread] at hbehind
        rw [hfound, List.length_append] at htrimmed
        omega
      -- What is read is neither shorter nor longer than what was written.
      have hsame : "...".toList ++ source = inner := by
        rcases List.append_eq_append_iff.mp hsplit with ⟨more, hmore, hrest⟩ | ⟨more, hmore, _⟩
        · cases more with
          | nil => rw [hmore, List.append_nil]
          | cons c more =>
              obtain ⟨rfl, _⟩ := List.cons.inj hrest
              rw [hmore, visible_append, visible_append] at hvisible
              cases List.append_right_eq_self.mp hvisible
        · have hboth := congrArg List.length hmore
          rw [List.length_append, List.length_append] at hboth
          have hnil : more = [] := List.length_eq_zero_iff.mp (by omega)
          rw [hmore, hnil, List.append_nil]
      rw [hgroup, hk, ← hsame, List.length_append, hdots]
      congr 1
      omega
    · cases h
  · cases hread

/-- A value in braces that is read back ends at its own brace. -/
theorem groupLength?_of_readValue {source : List Char} {before size : Nat}
    (h : readValue name before ('\x7b' :: (source ++ '\x7d' :: rest)) = .ok ⟨.expression source, size⟩) :
    groupLength? ('\x7b' :: (source ++ '\x7d' :: rest)) = some (source.length + 2) := by
  rw [readValue, if_neg (by decide), if_pos (by decide)] at h
  cases hgroup : groupLength? ('\x7b' :: (source ++ '\x7d' :: rest)) with
  | none =>
      rw [readGroup, hgroup] at h
      cases h
  | some k =>
      rw [readGroup, hgroup] at h
      obtain ⟨hvalue, _⟩ : (source ++ '\x7d' :: rest).take (k - 2) = source ∧ k = size := by simpa using h
      obtain ⟨inner, back, hinner, _, hk⟩ := exists_group hgroup
      rw [hk, hinner, hvalue]

/-- An attribute that is read where it was written has the group that it was written with. -/
theorem groupEnds {n : Nat} (ha : a.isReadable = true) (h : ReadsAttribute (a.print ++ rest) ⟨a, n⟩) :
    ∀ g ∈ a.group?, groupLength? (g ++ rest) = some g.length := by
  cases a with
  | spread source =>
      rintro g ⟨⟩
      rcases h with ⟨_, hread⟩ | ⟨⟨c, hhead, hc⟩, _⟩
      · have hends := @groupLength?_of_readSpread rest source n (by simpa [Attribute.print] using hread)
        simpa using hends
      · obtain rfl : '\x7b' = c := Option.some.inj hhead
        cases hc
  | property name value =>
      cases value with
      | none => exact fun g hg => by cases hg
      | some value =>
          cases value with
          | literal text => exact fun g hg => by cases hg
          | expression source =>
              rintro g ⟨⟩
              obtain ⟨c, tail, rfl, hc, hname⟩ := exists_of_isAttributeName ha
              have hassoc : (Attribute.property (c :: tail) (some (.expression source))).print ++ rest =
                  c :: tail ++ '=' :: ('\x7b' :: (source ++ '\x7d' :: rest)) := by simp [Attribute.print]
              rw [hassoc] at h
              rcases h with ⟨hbrace, _⟩ | ⟨_, hread⟩
              · obtain rfl : c = '\x7b' := Option.some.inj hbrace
                cases hc
              · rw [readProperty_equals hname (by rintro d ⟨⟩; decide), map_eq_ok_iff] at hread
                obtain ⟨⟨value, size⟩, hvalue, heq⟩ := hread
                obtain ⟨rfl, _⟩ : value = .expression source ∧ (c :: tail).length + 1 + size = n := by simpa using heq
                have hends := groupLength?_of_readValue hvalue
                simpa using hends

end ReadsAttribute

/-- The groups of attributes that are read back end at their own braces. -/
theorem groupsEnd_of_readAttributes {bound n : Nat} {e : Read TagEnd} (h : ∀ a ∈ attributes, a.isReadable = true)
    (hn : n ≤ blankLength (behindName attributes selfClosing rest))
    (hread : readAttributes bound ((behindName attributes selfClosing rest).drop n) = .ok e)
    (hsame : e.value.attributes = attributes) : GroupsEnd selfClosing rest attributes := by
  induction attributes generalizing bound n e with
  | nil => trivial
  | cons a attributes ih =>
      obtain ⟨ha, hattributes⟩ := List.forall_mem_cons.mp h
      have hone := @blankLength_behindName_cons a attributes rest selfClosing ha
      rw [hone] at hn
      -- Behind the blank, if it is still there, stands the first attribute.
      have htext : ((behindName (a :: attributes) selfClosing rest).drop n).drop
          (blankLength ((behindName (a :: attributes) selfClosing rest).drop n)) =
          a.print ++ behindName attributes selfClosing rest := by
        rcases Nat.le_one_iff_eq_zero_or_eq_one.mp hn with rfl | rfl
        · rw [List.drop_zero, hone, behindName_cons]
          rfl
        · rw [behindName_cons] at hone ⊢
          have hzero : blankLength (a.print ++ behindName attributes selfClosing rest) = 0 := by
            simpa [blankLength, isAsciiBlank] using hone
          rw [List.drop_succ_cons, List.drop_zero, hzero, List.drop_zero]
      cases bound with
      | zero => cases hread
      | succ bound =>
          rcases readAttributes_cases hread with hnone | ⟨⟨b, size⟩, tail, hfirst, htail, heq⟩
          · rw [hnone] at hsame
            cases hsame
          · obtain ⟨rfl, hrest⟩ := List.cons.inj (heq.symm.trans hsame)
            rw [htext] at hfirst htail
            have hgroup := hfirst.groupEnds ha
            obtain ⟨m, hm, hwritten⟩ := readsAttribute_written ha hgroup isNameChar_behindName
              (@ne_equals_behindName attributes rest selfClosing hattributes)
            obtain ⟨_, hsize⟩ := Read.mk.inj (hfirst.unique hwritten)
            dsimp only at htail hsize
            rw [hsize, ← List.drop_drop, List.drop_left] at htail
            exact ⟨hgroup, ih hattributes hm htail hrest⟩

/-! ## Elements of a document -/

/-- Some element among nodes, however deep, has the given tag. -/
inductive HasElement (tag : Tag) : List Node → Prop
  | here (children ns : List Node) : HasElement tag (.element tag children :: ns)
  | inside {outer : Tag} {children : List Node} (ns : List Node) (h : HasElement tag children) :
      HasElement tag (.element outer children :: ns)
  | behind (n : Node) {ns : List Node} (h : HasElement tag ns) : HasElement tag (n :: ns)

/-- The tag of an element that was read stands in its place. -/
theorem Reads.exists_tagged {outside line : Bool} {ns : List Node} (h : Reads outside line ns rest)
    (hmem : HasElement tag ns) : ∃ selfClosing opening behind,
      Tagged (.opening ⟨tag.name, ⟨tag.attributes, selfClosing⟩⟩) opening behind := by
  induction h with
  | nil => cases hmem
  | text _ _ _ ih =>
      cases hmem with
      | behind _ hmem => exact ih hmem
  | script _ _ _ ih =>
      cases hmem with
      | behind _ hmem => exact ih hmem
  | expression _ _ ih =>
      cases hmem with
      | behind _ hmem => exact ih hmem
  | childless _ hopening _ ih =>
      cases hmem with
      | here => exact ⟨_, _, _, hopening⟩
      | inside _ hmem => cases hmem
      | behind _ hmem => exact ih hmem
  | enclosing _ _ hopening _ _ _ ihchildren ih =>
      cases hmem with
      | here => exact ⟨_, _, _, hopening⟩
      | inside _ hmem => exact ihchildren hmem
      | behind _ hmem => exact ih hmem

/-- What the reader takes for a tag has a name, and attributes that can be read. -/
theorem Tagged.isTagName {text : List Char} (h : Tagged (.opening ⟨name, ⟨attributes, selfClosing⟩⟩) text rest) :
    IsTagName name attributes ∧ ∀ a ∈ attributes, a.isReadable = true := by
  refine ⟨?_, fun a ha => isReadable_of_readOpeningTag h.readOpening ha⟩
  obtain ⟨body, hbody⟩ := List.head?_eq_some_iff.mp h.bracket
  have hread := h.read
  rw [hbody, List.cons_append, Piece.ofBracket_eq_opening_iff] at hread
  obtain ⟨_, ⟨c, hhead, hc⟩, hread⟩ := hread
  obtain ⟨s, hs⟩ := List.head?_eq_some_iff.mp hhead
  rw [hs] at hread
  simp only [readOpeningTag, List.drop_succ_cons, List.drop_zero] at hread
  split at hread
  · cases hread
  rename_i e he
  obtain ⟨⟨rfl, htag⟩, _⟩ : ((c :: s).takeWhile isNameChar = name ∧ e.value = ⟨attributes, selfClosing⟩) ∧ _ := by
    simpa using hread
  rcases Bool.or_eq_true_iff.mp hc with halpha | hbracket
  · have hchar : isNameChar c = true := by simp [isNameChar, isAsciiAlphanumeric, halpha]
    rw [List.takeWhile_cons_of_pos hchar]
    exact .inl ⟨c, _, rfl, halpha, List.all_takeWhile⟩
  · obtain rfl := beq_iff_eq.mp hbracket
    rw [List.takeWhile_cons_of_neg (by decide), List.length_nil, List.drop_zero] at he
    have hend := @readAttributes_end [] ('>' :: s).length rfl s
    rw [List.nil_append, he] at hend
    rw [Except.ok.inj hend] at htag
    exact .inr ⟨rfl, (TagEnd.mk.inj htag).1.symm⟩

/-! ## New tags -/

/-- Whether a new tag around nodes closes itself. -/
def Tag.closesItself (t : Tag) (ns : List Node) : Bool :=
  ns.isEmpty && !t.name.isEmpty

/-- What is written behind a new opening tag around nodes. -/
def Tag.enclosed (t : Tag) (ns : List Node) : List Char :=
  if t.closesItself ns then [] else Node.printAll ns ++ Markup.closingText t.name

/-- Every group in braces of a new tag around nodes ends at its own brace; code without quotes, backticks and slashes does
(`groupsEnd_of_isWritable`). -/
def Tag.KeepsGroups (t : Tag) (ns : List Node) : Prop :=
  GroupsEnd (t.closesItself ns) (t.enclosed ns) t.attributes

/-- An element without the text of its tags is printed with new ones. -/
theorem print_unsourced (t : Tag) (ns : List Node) : Node.print (.element t.unsourced ns) =
    openingText t.name t.attributes (t.closesItself ns) ++ t.enclosed ns := by
  simp only [Node.print, Tag.print, Tag.head, Tag.unsourced, Tag.enclosed, Tag.closesItself, openingText,
    closingText, tagStop]
  by_cases hclosed : (ns.isEmpty && !t.name.isEmpty) = true
  · simp only [hclosed, if_true]
    simp
  · simp only [hclosed]
    simp

/-- So is an element that closed itself and has got children. -/
theorem print_of_closed {opening : List Char} {ns : List Node} (hsource : tag.source = some ⟨opening, none⟩)
    (hne : ns ≠ []) : Node.print (.element tag ns) = Node.print (.element tag.unsourced ns) := by
  have hchildren : ns.isEmpty = false := List.isEmpty_eq_false_iff.mpr hne
  simp only [Node.print, Tag.print, Tag.head, Tag.unsourced, hsource, hchildren, Bool.false_and, Bool.false_eq_true,
    if_false]

/-- A new tag is taken for a link if it holds nothing but the name of one. -/
theorem autolinkLength?_openingText (hname : IsTagName name attributes) :
    autolinkLength? (openingText name attributes selfClosing ++ rest) = none ↔
      ¬ (attributes = [] ∧ selfClosing = false ∧ IsLinkName name) := by
  obtain ⟨c, behind, hbehind, hc⟩ := exists_behindName attributes selfClosing rest
  have hbracket : c = '>' ↔ attributes = [] ∧ selfClosing = false := by
    cases attributes with
    | nil =>
        have hhead := congrArg List.head? hbehind
        cases selfClosing with
        | false =>
            obtain rfl : '>' = c := by simpa [behindName, tagStop] using hhead
            simp
        | true =>
            obtain rfl : ' ' = c := by simpa [behindName, tagStop] using hhead
            simp
    | cons a attributes =>
        rw [behindName_cons] at hbehind
        obtain ⟨rfl, _⟩ := List.cons.inj hbehind
        simp
  rw [openingText_append, hbehind, autolinkLength?_tag hname hc, hbracket, and_assoc]

/-! ## Children free of markup -/

/-- Whether nothing but prose starts in a text inside an element. -/
def FreeOfMarkup (s : List Char) : Prop :=
  (∀ c ∈ s, c ≠ '\\' ∧ c ≠ '\x60' ∧ c ≠ '<' ∧ c ≠ '\x7b') ∧ ¬ ['~', '~', '~'] <:+: s

/-- The nodes that such a text is read as in front of a tag. -/
theorem FreeOfMarkup.exists_nodes {s : List Char} (h : FreeOfMarkup s) (rest : List Char) :
    ∃ kids, Node.printAll kids = s ∧ Reads false false kids ('<' :: rest) := by
  cases s with
  | nil => exact ⟨[], rfl, .nil _ _ _⟩
  | cons c s =>
      have hprose : Prose false false (c :: s) ('<' :: rest) :=
        prose_of_marks h.1 h.2 (fun hinside => by cases hinside) (.inr (.inl rfl))
      exact ⟨[.text (c :: s)], by simp [Node.print], .text (List.cons_ne_nil c s) hprose (.nil _ _ _)⟩

/-! ## Elements with new tags -/

/-- A new opening tag with the right groups, and with more than the name of a link, is read where it stands. -/
theorem tagged_regenerated {ns : List Node} (hname : IsTagName tag.name tag.attributes)
    (hreadable : ∀ a ∈ tag.attributes, a.isReadable = true) (hgroups : tag.KeepsGroups ns)
    (hlink : ¬ (tag.attributes = [] ∧ tag.closesItself ns = false ∧ IsLinkName tag.name)) :
    Tagged (.opening ⟨tag.name, ⟨tag.attributes, tag.closesItself ns⟩⟩)
      (openingText tag.name tag.attributes (tag.closesItself ns)) (tag.enclosed ns) := by
  refine tagged_opening hname ?_ hreadable hgroups ((autolinkLength?_openingText hname).mpr hlink)
  intro hclosed hnil
  simp [Tag.closesItself, hnil] at hclosed

/-- An element whose new opening tag is read where it stands is recognised as one. -/
theorem exists_reads_of_tagged {ns : List Node} (hname : IsTagName tag.name tag.attributes)
    (hfree : FreeOfMarkup (Node.printAll ns))
    (hopening : Tagged (.opening ⟨tag.name, ⟨tag.attributes, tag.closesItself ns⟩⟩)
      (openingText tag.name tag.attributes (tag.closesItself ns)) (tag.enclosed ns)) :
    ∃ t kids, t.name = tag.name ∧ t.attributes = tag.attributes ∧
      Node.print (.element t kids) = Node.print (.element tag.unsourced ns) ∧
      Reads true true [.element t kids] [] := by
  have hprint := print_unsourced tag ns
  cases hclosed : tag.closesItself ns with
  | true =>
      have hns : ns = [] := by
        rw [Tag.closesItself, Bool.and_eq_true, List.isEmpty_iff] at hclosed
        exact hclosed.1
      subst hns
      rw [hclosed, Tag.enclosed, hclosed, if_pos rfl] at hopening hprint
      rw [List.append_nil] at hprint
      refine ⟨tag.unsourced, [], rfl, rfl, rfl, .childless (fun _ hsource => by cases hsource) ?_ (.nil _ _ _)⟩
      rw [hprint]
      exact hopening
  | false =>
      rw [hclosed, Tag.enclosed, hclosed, if_neg Bool.false_ne_true] at hopening hprint
      -- The tags are kept as they are now, so that no children do not close the element.
      obtain ⟨kids, hkids, hreads⟩ := hfree.exists_nodes ('/' :: tag.name ++ ['>'])
      obtain ⟨t, htname, htattributes, hsource⟩ : ∃ t : Tag, t.name = tag.name ∧ t.attributes = tag.attributes ∧
          t.source = some ⟨openingText tag.name tag.attributes false, some (closingText tag.name)⟩ :=
        ⟨{ tag with source := some ⟨_, _⟩ }, rfl, rfl, rfl⟩
      have hkept : Node.print (.element t kids) =
          openingText tag.name tag.attributes false ++ Node.printAll kids ++ closingText tag.name := by
        simp only [Node.print, Tag.print, hsource]
      refine ⟨t, kids, htname, htattributes, by rw [hkept, hprint, hkids, List.append_assoc], ?_⟩
      refine .enclosing (fun _ h => (Option.some.inj (hsource.symm.trans h)).symm) hkept ?_ ?_
        (htname ▸ tagged_closing hname.chars _) (.nil _ _ _)
      · rw [htname, htattributes]
        simpa [hkids] using hopening
      · simpa [closingText] using hreads

/-- The text of a single element starts with its opening tag. -/
theorem exists_tagged_of_parse {source : List Char} {kids : List Node} (h : parse source = .ok ⟨[.element tag kids]⟩) :
    ∃ selfClosing opening behind, Tagged (.opening ⟨tag.name, ⟨tag.attributes, selfClosing⟩⟩) opening behind ∧
      opening ++ behind = source := by
  have hprint := parse_print h
  rw [Document.print, Node.printAll_cons, Node.printAll_nil, List.append_nil] at hprint
  cases parse_reads h with
  | childless _ hopening _ => exact ⟨_, _, _, hopening, by simpa using hprint⟩
  | enclosing _ hwritten hopening _ _ _ =>
      refine ⟨_, _, _, hopening, ?_⟩
      rw [← hprint, hwritten]
      simp

/-- The groups of a new opening tag that its attributes are read back from end at their own braces. -/
theorem keepsGroups_of_tagged {ns : List Node} {opening behind : List Char}
    (hname : IsTagName tag.name tag.attributes) (hreadable : ∀ a ∈ tag.attributes, a.isReadable = true)
    (htext : opening ++ behind = openingText tag.name tag.attributes (tag.closesItself ns) ++ tag.enclosed ns)
    (h : Tagged (.opening ⟨tag.name, ⟨tag.attributes, selfClosing⟩⟩) opening behind) :
    tag.KeepsGroups ns ∧ ¬ (tag.attributes = [] ∧ tag.closesItself ns = false ∧ IsLinkName tag.name) := by
  have hread := h.read
  rw [htext, openingText_append, Piece.ofBracket_eq_opening_iff, ← openingText_append] at hread
  obtain ⟨hlink, _, hread⟩ := hread
  refine ⟨?_, (autolinkLength?_openingText hname).mp hlink⟩
  have htaken := takeWhile_isNameChar hname.chars
    (@isNameChar_behindName tag.attributes (tag.enclosed ns) (tag.closesItself ns))
  simp only [openingText_append, readOpeningTag, List.drop_succ_cons, List.drop_zero, htaken, List.drop_left] at hread
  split at hread
  · cases hread
  · rename_i e he
    obtain ⟨hend, _⟩ : e.value = ⟨tag.attributes, selfClosing⟩ ∧ _ := by simpa using hread
    exact groupsEnd_of_readAttributes hreadable (Nat.zero_le _) he (congrArg TagEnd.attributes hend)

/-- The attributes of an element that was read come back from its new tags exactly if every group in braces ends at its
own brace there, and the new opening tag does not hold nothing but the name of a link. -/
theorem attributes_kept_iff {source : List Char} {d : Document} {ns : List Node} (h : parse source = .ok d)
    (hmem : HasElement tag d.children) (hfree : FreeOfMarkup (Node.printAll ns)) :
    (∃ t kids, parse (Node.print (.element tag.unsourced ns)) = .ok ⟨[.element t kids]⟩ ∧ t.name = tag.name ∧
      t.attributes = tag.attributes) ↔
      tag.KeepsGroups ns ∧ ¬ (tag.attributes = [] ∧ ns ≠ [] ∧ IsLinkName tag.name) := by
  obtain ⟨_, _, _, hwritten⟩ := (parse_reads h).exists_tagged hmem
  obtain ⟨hname, hreadable⟩ := hwritten.isTagName
  -- A name of a link is not empty, so it is for its children that an element of that name does not close itself.
  have hopen : IsLinkName tag.name → (ns ≠ [] ↔ tag.closesItself ns = false) := by
    rintro ⟨c, scheme, target, heq, _⟩
    simp [Tag.closesItself, heq]
  have hlink : (tag.attributes = [] ∧ ns ≠ [] ∧ IsLinkName tag.name) ↔
      (tag.attributes = [] ∧ tag.closesItself ns = false ∧ IsLinkName tag.name) :=
    and_congr_right fun _ => and_congr_left hopen
  rw [hlink]
  constructor
  · rintro ⟨t, kids, hparse, htname, htattributes⟩
    obtain ⟨selfClosing, opening, behind, hopening, htext⟩ := exists_tagged_of_parse hparse
    rw [htname, htattributes] at hopening
    exact keepsGroups_of_tagged hname hreadable (htext.trans (print_unsourced tag ns)) hopening
  · rintro ⟨hgroups, hnolink⟩
    obtain ⟨t, kids, htname, htattributes, hprint, hreads⟩ :=
      exists_reads_of_tagged hname hfree (tagged_regenerated hname hreadable hgroups hnolink)
    obtain ⟨t', ks, hparse, hname', hattributes'⟩ := exists_parse_of_reads hreads
    exact ⟨t', ks, hprint ▸ hparse, hname'.trans htname, hattributes'.trans htattributes⟩

/-- An element that closed itself keeps a value in braces and spread attributes when prose is put into it. -/
theorem attributes_kept_iff_prose : ∃ tag : Tag,
    tag.attributes = [.property ['b'] (some (.expression "'\x7d'".toList)), .spread ['c']] ∧
    (∃ d, parse "<A b=\x7b'\x7d'\x7d \x7b... c\x7d/>".toList = .ok d ∧ HasElement tag d.children) ∧
    FreeOfMarkup (Node.printAll [.text "d ~ e".toList]) ∧
    ∃ t kids, parse (Node.print (.element tag [.text "d ~ e".toList])) = .ok ⟨[.element t kids]⟩ ∧
      t.name = tag.name ∧ t.attributes = tag.attributes := by
  have hparse : parse "<A b=\x7b'\x7d'\x7d \x7b... c\x7d/>".toList = .ok ⟨[.element
      ⟨['A'], [.property ['b'] (some (.expression "'\x7d'".toList)), .spread ['c']], true, .start,
        some ⟨"<A b=\x7b'\x7d'\x7d \x7b... c\x7d/>".toList, none⟩⟩ []]⟩ := rfl
  have hfree : FreeOfMarkup (Node.printAll [.text "d ~ e".toList]) := by
    constructor
    · decide
    · decide
  refine ⟨_, rfl, ⟨_, hparse, .here _ _⟩, hfree, ?_⟩
  rw [print_of_closed rfl (List.cons_ne_nil _ _)]
  refine (attributes_kept_iff hparse (.here _ _) hfree).mpr ⟨⟨?_, ?_, trivial⟩, ?_⟩
  · rintro g ⟨⟩
    rfl
  · rintro g ⟨⟩
    rfl
  · rintro ⟨hnone, _⟩
    cases hnone

/-- What is spread is trimmed, so the brace of a new tag can stand in a comment that ended in front of it: an element
that loses its children is then no element any more. -/
theorem attributes_lost_comment : ∃ tag : Tag, tag.attributes = [.spread "a // b".toList] ∧
    (∃ d, parse "<Story \x7b...a // b\n\x7d>x</Story>".toList = .ok d ∧ HasElement tag d.children) ∧
    FreeOfMarkup (Node.printAll []) ∧
    Node.print (.element tag.unsourced []) = "<Story \x7b...a // b\x7d />".toList ∧
    ¬ ∃ t kids, parse (Node.print (.element tag.unsourced [])) = .ok ⟨[.element t kids]⟩ ∧ t.name = tag.name ∧
      t.attributes = tag.attributes := by
  have hparse : parse "<Story \x7b...a // b\n\x7d>x</Story>".toList = .ok ⟨[.element
      ⟨"Story".toList, [.spread "a // b".toList], true, .start,
        some ⟨"<Story \x7b...a // b\n\x7d>".toList, some "</Story>".toList⟩⟩ [.text ['x']]]⟩ := rfl
  refine ⟨_, rfl, ⟨_, hparse, .here _ _⟩, by constructor <;> decide, rfl, ?_⟩
  rintro ⟨t, kids, hreparse, _⟩
  have hfails : (parse "<Story \x7b...a // b\x7d />".toList).toBool = false := rfl
  have hsucceeds := congrArg Except.toBool hreparse
  cases hfails.symm.trans hsucceeds

end Markup
end StoryDocs
