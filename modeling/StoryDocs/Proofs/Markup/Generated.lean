import StoryDocs.Proofs.Markup.Canonical
import StoryDocs.Proofs.Markup.Tags
import StoryDocs.Proofs.Text.Trimming

/-!
# Documents that were put together

A document can be put together from prose, expressions and elements, and is then printed with new tags.  Its
text is read back as the same document, as long as prose holds no mark of the markup, names are names, code in
braces keeps its braces balanced, and no value holds both kinds of quotes.
-/

namespace StoryDocs
namespace Markup

open Text

/-! ## What can be written -/

/-- Whether a text can be prose: it is not empty, has no mark of the markup, and no line of it starts like a
script block. -/
def isProse (value : List Char) : Bool :=
  !value.isEmpty &&
    value.all (fun c => c != '\\' && c != '\x60' && c != '<' && c != '\x7b' && c != '~') &&
    (pieces value).all fun line => !startsWith "import".toList line && !startsWith "export".toList line

/-- Whether a text is the name of an element. -/
def isElementName : List Char → Bool
  | [] => false
  | c :: s => c.isAlpha && s.all fun d =>
    isAsciiAlphanumeric d || d == '_' || d == '$' || d == '.' || d == '-'

/-- Whether a text is the name of an attribute. -/
def isAttributeName : List Char → Bool
  | [] => false
  | c :: s => startsName c && s.all isNameChar

/-- Whether an attribute can be written: a value in quotes leaves one kind of quotes to write it in. -/
def Attribute.isWritable : Attribute → Bool
  | .property name none => isAttributeName name
  | .property name (some (.literal text)) =>
    isAttributeName name && !(text.contains '\x22' && text.contains '\x27')
  | .property name (some (.expression source)) => isAttributeName name && isCode source
  | .spread source => isCode source && trim source == source

/-- Whether the reader can give an attribute: a value in quotes leaves one kind of quotes to write it in, and what is
spread is trimmed. -/
def Attribute.isReadable : Attribute → Bool
  | .property name (some (.literal text)) =>
    isAttributeName name && !(text.contains '\x22' && text.contains '\x27')
  | .property name _ => isAttributeName name
  | .spread source => trim source == source

/-- The group in braces that an attribute is written with. -/
def Attribute.group? : Attribute → Option (List Char)
  | .property _ (some (.expression source)) => some ('\x7b' :: source ++ ['\x7d'])
  | .property _ _ => none
  | .spread source => some ('\x7b' :: '.' :: '.' :: '.' :: source ++ ['\x7d'])

/-- Nodes that were put together: prose between other nodes, expressions, and elements that have no tags
yet.  A fragment has neither name nor attributes. -/
inductive Composed : List Node → Prop
  | nil : Composed []
  | text {value : List Char} {ns : List Node} (hprose : isProse value = true)
      (hnext : ∀ n ∈ ns.head?, n.isText = false) (hrest : Composed ns) :
      Composed (.text value :: ns)
  | expression {value : List Char} {ns : List Node} (hcode : isCode value = true)
      (hrest : Composed ns) : Composed (.expression value false :: ns)
  | element {name : List Char} {attributes : List Attribute} {children ns : List Node}
      (hname : isElementName name = true ∨ (name = [] ∧ attributes = []))
      (hattributes : ∀ a ∈ attributes, a.isWritable = true)
      (hchildren : Composed children) (hrest : Composed ns) :
      Composed (.element { name := name, attributes := attributes } children :: ns)

/-! ## Tags -/

section Tags

variable {a : Attribute} {attributes : List Attribute} {name rest : List Char}

theorem isNameChar_of_startsName {c : Char} (h : startsName c = true) : isNameChar c = true := by
  simp only [startsName, Bool.or_eq_true] at h
  simp only [isNameChar, isAsciiAlphanumeric, Bool.or_eq_true]
  tauto

theorem exists_of_isAttributeName (h : isAttributeName name = true) :
    ∃ c tail, name = c :: tail ∧ startsName c = true ∧ name.all isNameChar = true := by
  cases name with
  | nil => cases h
  | cons c tail =>
      rw [isAttributeName, Bool.and_eq_true] at h
      exact ⟨c, tail, rfl, h.1, by rw [List.all_cons, isNameChar_of_startsName h.1, h.2]; rfl⟩

/-- A text ends where its quote comes. -/
theorem takeWhile_quote {quote : Char} {text : List Char} (h : quote ∉ text) (rest : List Char) :
    (text ++ quote :: rest).takeWhile (· != quote) = text := by
  rw [List.takeWhile_append_of_pos]
  · simp
  · intro c hc
    have hne : c ≠ quote := by
      rintro rfl
      exact h hc
    simpa using hne

/-- A quoted value is read up to its quote. -/
theorem readValue_quoted {quote : Char} {text : List Char} (hquote : quote = '\x22' ∨ quote = '\x27')
    (h : quote ∉ text) (name : List Char) (before : Nat) (rest : List Char) :
    readValue name before (quote :: text ++ quote :: rest) = .ok ⟨.literal text, text.length + 2⟩ := by
  have htaken := takeWhile_quote h rest
  have hmark : (quote == '\x22' || quote == '\x27') = true := by
    rcases hquote with rfl | rfl
    · rfl
    · rfl
  simp only [readValue, List.cons_append, hmark, if_true, htaken]
  rw [if_pos (by simp)]

theorem trimEnd_eq_self_of_trim {s : List Char} (h : trim s = s) : trimEnd s = s := by
  have htwice : trimEnd (trim s) = trim s := dropTail_dropTail isBlank (trimStart s)
  rwa [h] at htwice

/-- Spread attributes are read from their braces. -/
theorem readSpread_written {source : List Char} (htrim : trim source = source)
    (hgroup : groupLength? ((Attribute.spread source).print ++ rest) =
      some (Attribute.spread source).print.length) :
    readSpread ((Attribute.spread source).print ++ rest) =
      .ok ⟨.spread source, (Attribute.spread source).print.length⟩ := by
  have hend : trimEnd ('.' :: '.' :: '.' :: source) = '.' :: '.' :: '.' :: source := by
    cases hsource : source with
    | nil => rfl
    | cons c t =>
        have hself := trimEnd_eq_self_of_trim htrim
        rw [hsource] at hself
        simp only [trimEnd, dropTail] at hself ⊢
        rw [hself]
  have hinner : trim ('.' :: '.' :: '.' :: source) = '.' :: '.' :: '.' :: source := by
    have hstart : trimStart ('.' :: '.' :: '.' :: source) = '.' :: '.' :: '.' :: source := rfl
    rw [trim, hstart, hend]
  simp only [Attribute.print, List.cons_append, List.append_assoc, List.nil_append,
    List.length_cons] at hgroup ⊢
  simp [readSpread, readGroup, hgroup, hinner, dropLead?, htrim]

/-- What an attribute starts with. -/
theorem exists_print_head (h : a.isReadable = true) :
    ∃ c text, a.print = c :: text ∧ (c = '\x7b' ∨ startsName c = true) := by
  have hnamed : ∀ {name : List Char} (text : List Char), isAttributeName name = true →
      ∃ c tail, name ++ text = c :: tail ∧ (c = '\x7b' ∨ startsName c = true) := by
    intro name text hname
    obtain ⟨c, tail, rfl, hc, _⟩ := exists_of_isAttributeName hname
    exact ⟨c, tail ++ text, rfl, .inr hc⟩
  cases a with
  | spread source => exact ⟨_, _, rfl, .inl rfl⟩
  | property name value =>
      cases value with
      | none =>
          have hplain := hnamed [] h
          rwa [List.append_nil] at hplain
      | some value =>
          cases value with
          | literal text =>
              rw [Attribute.isReadable, Bool.and_eq_true] at h
              simp only [Attribute.print, List.append_assoc]
              exact hnamed _ h.1
          | expression source =>
              simp only [Attribute.print, List.append_assoc]
              exact hnamed _ h

/-- A written attribute is read back if its group ends where it was written; one without a value takes the blanks
behind it. -/
theorem readsAttribute_written (h : a.isReadable = true)
    (hgroup : ∀ g ∈ a.group?, groupLength? (g ++ rest) = some g.length)
    (hrest : ∀ c, rest.head? = some c → isNameChar c = false)
    (hequals : (rest.drop (blankLength rest)).head? ≠ some '=') :
    ∃ n ≤ blankLength rest, ReadsAttribute (a.print ++ rest) ⟨a, a.print.length + n⟩ := by
  cases a with
  | spread source =>
      rw [Attribute.isReadable, beq_iff_eq] at h
      exact ⟨0, Nat.zero_le _, .inl ⟨rfl, readSpread_written h (hgroup _ rfl)⟩⟩
  | property name value =>
      cases value with
      | none =>
          obtain ⟨c, tail, rfl, hc, hname⟩ := exists_of_isAttributeName h
          exact ⟨blankLength rest, Nat.le_refl _, .inr ⟨⟨c, rfl, hc⟩, readProperty_alone hname hrest hequals⟩⟩
      | some value =>
          refine ⟨0, Nat.zero_le _, .inr ?_⟩
          cases value with
          | literal text =>
              rw [Attribute.isReadable, Bool.and_eq_true] at h
              obtain ⟨c, tail, rfl, hc, hname⟩ := exists_of_isAttributeName h.1
              -- The quote is of the kind that the text does not hold.
              obtain ⟨quote, hprint, hquote, hfree⟩ : ∃ quote,
                  (Attribute.property (c :: tail) (some (.literal text))).print =
                    c :: tail ++ '=' :: quote :: text ++ [quote] ∧
                  (quote = '\x22' ∨ quote = '\x27') ∧ quote ∉ text := by
                refine ⟨_, rfl, ?_, ?_⟩
                · split
                  · exact .inr rfl
                  · exact .inl rfl
                · split
                  · rename_i hdouble
                    have hmem : '\x22' ∈ text := by simpa using hdouble
                    simpa [hmem] using h.2
                  · rename_i hdouble
                    simpa using hdouble
              have hvalue := readValue_quoted hquote hfree (c :: tail) ((c :: tail).length + 1) rest
              have hread := readProperty_value hname (by
                rintro d ⟨⟩
                rcases hquote with rfl | rfl
                · decide
                · decide) hvalue
              rw [hprint]
              refine ⟨⟨c, rfl, hc⟩, ?_⟩
              simp only [List.append_assoc, List.cons_append, List.nil_append, List.length_cons,
                List.length_append, List.length_nil] at hread ⊢
              rw [hread]
              congr 2
              omega
          | expression source =>
              obtain ⟨c, tail, rfl, hc, hname⟩ := exists_of_isAttributeName h
              have hends : groupLength? ('\x7b' :: source ++ '\x7d' :: rest) = some (source.length + 2) := by
                have hgroup := hgroup _ rfl
                simpa using hgroup
              have hvalue := readValue_group hends (c :: tail) ((c :: tail).length + 1)
              have hread := readProperty_value hname (by rintro d ⟨⟩; decide) hvalue
              refine ⟨⟨c, rfl, hc⟩, ?_⟩
              simp only [Attribute.print, List.append_assoc, List.cons_append, List.nil_append,
                List.length_cons, List.length_append, List.length_nil] at hread ⊢
              rw [hread]
              congr 2
              omega

/-- The end of an opening tag. -/
def tagStop (selfClosing : Bool) : List Char :=
  if selfClosing then " />".toList else ['>']

/-- What is written behind the name of a tag, up to a text behind the tag. -/
def behindName (attributes : List Attribute) (selfClosing : Bool) (rest : List Char) : List Char :=
  attributes.flatMap (fun a => ' ' :: a.print) ++ (tagStop selfClosing ++ rest)

variable {selfClosing : Bool}

theorem behindName_cons (a : Attribute) (attributes : List Attribute) :
    behindName (a :: attributes) selfClosing rest =
      ' ' :: (a.print ++ behindName attributes selfClosing rest) := by
  simp [behindName]

theorem length_le_behindName (attributes : List Attribute) :
    attributes.length ≤ (behindName attributes selfClosing rest).length := by
  induction attributes with
  | nil => exact Nat.zero_le _
  | cons a attributes ih =>
      rw [behindName_cons, List.length_cons, List.length_cons, List.length_append]
      omega

theorem behindName_head (c : Char) (hc : (behindName attributes selfClosing rest).head? = some c) :
    c = ' ' ∨ c = '>' := by
  cases attributes with
  | nil =>
      cases selfClosing with
      | false => exact .inr (Option.some.inj hc).symm
      | true => exact .inl (Option.some.inj hc).symm
  | cons a attributes =>
      rw [behindName_cons] at hc
      exact .inl (Option.some.inj hc).symm

theorem isNameChar_behindName (c : Char)
    (hc : (behindName attributes selfClosing rest).head? = some c) : isNameChar c = false := by
  rcases behindName_head c hc with rfl | rfl
  · decide
  · decide

/-- One blank comes before an attribute. -/
theorem blankLength_behindName_cons (ha : a.isReadable = true) :
    blankLength (behindName (a :: attributes) selfClosing rest) = 1 := by
  obtain ⟨c, text, hprint, hc⟩ := exists_print_head ha
  have hblank : isAsciiBlank c = false := by
    have hnot : ∀ d, d ≠ '\x7b' → startsName d = false → c ≠ d := by
      rintro d hbrace hname rfl
      rcases hc with rfl | hc
      · exact hbrace rfl
      · rw [hname] at hc
        cases hc
    simp [isAsciiBlank, hnot ' ' (by decide) (by decide), hnot '\t' (by decide) (by decide),
      hnot '\n' (by decide) (by decide), hnot '\x0c' (by decide) (by decide),
      hnot '\r' (by decide) (by decide)]
  rw [behindName_cons, ← List.singleton_append]
  exact blankLength_append (by decide) fun d hd => by
    rw [hprint] at hd
    rw [← Option.some.inj hd]
    exact hblank

theorem ne_equals_behindName (h : ∀ a ∈ attributes, a.isReadable = true) :
    ((behindName attributes selfClosing rest).drop
      (blankLength (behindName attributes selfClosing rest))).head? ≠ some '=' := by
  cases attributes with
  | nil =>
      cases selfClosing with
      | false => exact fun hhead => absurd (Option.some.inj hhead) (by decide)
      | true => exact fun hhead => absurd (Option.some.inj hhead) (by decide)
  | cons a attributes =>
      obtain ⟨c, text, hprint, hc⟩ := exists_print_head (h a (by simp))
      rw [blankLength_behindName_cons (h a (by simp)), behindName_cons, hprint]
      rintro ⟨⟩
      rcases hc with hc | hc
      · exact absurd hc (by decide)
      · exact absurd hc (by decide)

/-- Every group in braces that attributes are written with ends at its own brace, where what comes behind it in the
tag and behind the tag stands. -/
def GroupsEnd (selfClosing : Bool) (rest : List Char) : List Attribute → Prop
  | [] => True
  | a :: attributes =>
    (∀ g ∈ a.group?, groupLength? (g ++ behindName attributes selfClosing rest) = some g.length) ∧
      GroupsEnd selfClosing rest attributes

/-- Written attributes are read back, whether the blanks before them are there or not. -/
theorem readAttributes_written {bound n : Nat} (h : ∀ a ∈ attributes, a.isReadable = true)
    (hgroups : GroupsEnd selfClosing rest attributes) (hbound : attributes.length < bound)
    (hn : n ≤ blankLength (behindName attributes selfClosing rest)) :
    ∃ size, readAttributes bound ((behindName attributes selfClosing rest).drop n) =
        .ok ⟨⟨attributes, selfClosing⟩, size⟩ ∧
      size + n + rest.length = (behindName attributes selfClosing rest).length := by
  induction attributes generalizing bound n with
  | nil =>
      obtain ⟨bound, rfl⟩ := Nat.exists_eq_succ_of_ne_zero (by omega : bound ≠ 0)
      have hnone : ([] : List Char).all isAsciiBlank = true := rfl
      have hblank : [' '].all isAsciiBlank = true := rfl
      have hlength : (behindName [] selfClosing rest).length = (tagStop selfClosing).length + rest.length := by
        rw [behindName, List.flatMap_nil, List.nil_append, List.length_append]
      cases selfClosing with
      | false =>
          have hzero : n = 0 := Nat.le_zero.mp hn
          subst hzero
          refine ⟨1, readAttributes_end hnone rest, ?_⟩
          rw [hlength]
          rfl
      | true =>
          have hone : n ≤ 1 := hn
          have hstop : (tagStop true).length = 3 := rfl
          rcases Nat.le_one_iff_eq_zero_or_eq_one.mp hone with rfl | rfl
          · exact ⟨3, readAttributes_selfClosing hblank rest, by omega⟩
          · exact ⟨2, readAttributes_selfClosing hnone rest, by omega⟩
  | cons a attributes ih =>
      rw [List.length_cons] at hbound
      obtain ⟨bound, rfl⟩ := Nat.exists_eq_succ_of_ne_zero (by omega : bound ≠ 0)
      have hrest : ∀ b ∈ attributes, b.isReadable = true := fun b hb => h b (by simp [hb])
      rw [blankLength_behindName_cons (h a (by simp))] at hn
      -- One attribute is read, and perhaps the blanks behind it; then the others.
      obtain ⟨m, hm, hread⟩ := readsAttribute_written (h a (by simp)) hgroups.1 isNameChar_behindName
        (@ne_equals_behindName attributes rest selfClosing hrest)
      have hbelow : attributes.length < bound := by omega
      obtain ⟨size, htail, hsize⟩ := ih hrest hgroups.2 hbelow hm
      have hdrop : (a.print ++ behindName attributes selfClosing rest).drop (a.print.length + m) =
          (behindName attributes selfClosing rest).drop m := by
        rw [← List.drop_drop, List.drop_left]
      obtain ⟨gap, hgap, hlength, htext⟩ : ∃ gap : List Char, gap.all isAsciiBlank = true ∧
          gap.length + n = 1 ∧ (behindName (a :: attributes) selfClosing rest).drop n =
            gap ++ (a.print ++ behindName attributes selfClosing rest) := by
        rw [behindName_cons]
        rcases Nat.le_one_iff_eq_zero_or_eq_one.mp hn with rfl | rfl
        · exact ⟨[' '], rfl, rfl, rfl⟩
        · exact ⟨[], rfl, rfl, rfl⟩
      refine ⟨gap.length + (a.print.length + m) + size, ?_, ?_⟩
      · rw [htext]
        exact readAttributes_next hgap hread (by rw [hdrop]; exact htail)
      · rw [behindName_cons, List.length_cons, List.length_append, ← hsize]
        omega

/-- Where characters of a class end, nothing stands that neither the text nor what follows it holds. -/
theorem head?_behind_class {p : Char → Bool} {c d : Char} (hc : p c = false) (hne : c ≠ d)
    (hname : d ∉ name) :
    ((name ++ c :: rest).drop ((name ++ c :: rest).takeWhile p).length).head? ≠ some d := by
  obtain ⟨htaken, hdrop⟩ := takeWhile_stop hc name rest
  rw [htaken, hdrop]
  intro hhead
  cases hleft : name.drop (name.takeWhile p).length with
  | nil =>
      rw [hleft] at hhead
      exact hne (Option.some.inj hhead)
  | cons e left =>
      rw [hleft] at hhead
      have hmem : e ∈ name := (List.drop_subset _ name) (by rw [hleft]; exact List.mem_cons_self)
      rw [Option.some.inj hhead] at hmem
      exact hname hmem

/-- A name without the sign of a mail address starts no link to one. -/
theorem mailLinkLength?_name {c : Char} (hmail : '@' ∉ name) (hc : c = ' ' ∨ c = '>') :
    mailLinkLength? (name ++ c :: rest) = none := by
  have hstop : isMailboxChar c = false ∧ c ≠ '@' := by
    rcases hc with rfl | rfl
    · decide
    · decide
  rw [mailLinkLength?]
  dsimp only
  split
  · rfl
  · split
    · rename_i t hbehind
      exact absurd (congrArg List.head? hbehind) (head?_behind_class hstop.1 hstop.2 hmail)
    · rfl

/-- A name without the sign of a scheme or a mail address starts no link. -/
theorem autolinkLength?_name {c : Char} (hscheme : ':' ∉ name) (hmail : '@' ∉ name)
    (hc : c = ' ' ∨ c = '>') : autolinkLength? ('<' :: (name ++ c :: rest)) = none := by
  have hstop : isSchemeChar c = false ∧ c.isAlpha = false ∧ c ≠ ':' := by
    rcases hc with rfl | rfl
    · decide
    · decide
  have hfirst : schemeLinkLength? (name ++ c :: rest) = none := by
    cases name with
    | nil => simp [schemeLinkLength?, hstop.2.1]
    | cons d name =>
        rw [List.cons_append, schemeLinkLength?]
        dsimp only
        split
        · rfl
        · split
          · rename_i t hbehind
            refine absurd (congrArg List.head? hbehind) ?_
            exact head?_behind_class hstop.1 hstop.2.2 fun hmem => hscheme (by simp [hmem])
          · rfl
  rw [autolinkLength?, hfirst, mailLinkLength?_name hmail hc]
  rfl

/-- What the reader takes for the name of a tag with the given attributes: one that starts with a letter, or that of a
fragment. -/
def IsTagName (name : List Char) (attributes : List Attribute) : Prop :=
  (∃ c tail, name = c :: tail ∧ c.isAlpha = true ∧ tail.all isNameChar = true) ∨ name = [] ∧ attributes = []

theorem IsTagName.chars (h : IsTagName name attributes) : name.all isNameChar = true := by
  rcases h with ⟨c, tail, rfl, hc, htail⟩ | ⟨rfl, _⟩
  · rw [List.all_cons, htail, Bool.and_true]
    simp [isNameChar, isAsciiAlphanumeric, hc]
  · rfl

theorem isTagName_of_isElementName (hname : isElementName name = true ∨ (name = [] ∧ attributes = [])) :
    IsTagName name attributes := by
  rcases hname with hname | hfragment
  · cases name with
    | nil => cases hname
    | cons c name =>
        rw [isElementName, Bool.and_eq_true] at hname
        refine .inl ⟨c, name, rfl, hname.1, List.all_eq_true.mpr fun d hd => ?_⟩
        have hclass := List.all_eq_true.mp hname.2 d hd
        simp only [isNameChar, Bool.or_eq_true] at hclass ⊢
        tauto
  · exact .inr hfragment

/-- No name holds the sign of a mail address. -/
theorem IsTagName.mail_not_mem (h : IsTagName name attributes) : '@' ∉ name := by
  intro hmem
  have hmail := List.all_eq_true.mp h.chars '@' hmem
  cases hmail

/-- The name of an element that was put together holds no sign of a scheme. -/
theorem scheme_not_mem (hname : isElementName name = true ∨ name = []) : ':' ∉ name := by
  rcases hname with hname | rfl
  · cases name with
    | nil => cases hname
    | cons c name =>
        rw [isElementName, Bool.and_eq_true] at hname
        intro hmem
        rcases List.mem_cons.mp hmem with rfl | hmem
        · cases hname.1
        · have hclass := List.all_eq_true.mp hname.2 ':' hmem
          cases hclass
  · exact List.not_mem_nil

/-- A new opening tag. -/
def openingText (name : List Char) (attributes : List Attribute) (selfClosing : Bool) : List Char :=
  '<' :: name ++ attributes.flatMap (fun a => ' ' :: a.print) ++ tagStop selfClosing

/-- A new closing tag. -/
def closingText (name : List Char) : List Char :=
  '<' :: '/' :: name ++ ['>']

theorem openingText_append (name : List Char) (attributes : List Attribute) (selfClosing : Bool) (rest : List Char) :
    openingText name attributes selfClosing ++ rest = '<' :: (name ++ behindName attributes selfClosing rest) := by
  simp [openingText, behindName]

theorem exists_behindName (attributes : List Attribute) (selfClosing : Bool) (rest : List Char) :
    ∃ c behind, behindName attributes selfClosing rest = c :: behind ∧ (c = ' ' ∨ c = '>') := by
  obtain ⟨c, behind, hbehind⟩ : ∃ c behind, behindName attributes selfClosing rest = c :: behind := by
    refine List.exists_cons_of_ne_nil ?_
    cases selfClosing with
    | false => simp [behindName, tagStop]
    | true => simp [behindName, tagStop]
  exact ⟨c, behind, hbehind, behindName_head c (by rw [hbehind]; rfl)⟩

/-- A new opening tag is read back if its groups end where they were written and it is no link. -/
theorem tagged_opening (hname : IsTagName name attributes) (hself : selfClosing = true → name ≠ [])
    (hattributes : ∀ a ∈ attributes, a.isReadable = true) (hgroups : GroupsEnd selfClosing rest attributes)
    (hlink : autolinkLength? (openingText name attributes selfClosing ++ rest) = none) :
    Tagged (.opening ⟨name, ⟨attributes, selfClosing⟩⟩) (openingText name attributes selfClosing) rest := by
  have htext := openingText_append name attributes selfClosing rest
  obtain ⟨size, hread, hsize⟩ := readAttributes_written hattributes hgroups
    (Nat.lt_succ_of_le (@length_le_behindName rest selfClosing attributes)) (Nat.zero_le _)
  have htag := readOpeningTag_of_attributes hname.chars isNameChar_behindName hread
  refine ⟨rfl, ?_⟩
  rw [htext] at hlink ⊢
  rw [Piece.ofBracket_eq_opening_iff]
  refine ⟨hlink, ?_, ?_⟩
  · rcases hname with ⟨d, tail, rfl, hd, _⟩ | ⟨rfl, rfl⟩
    · exact ⟨d, rfl, by rw [hd]; rfl⟩
    · cases selfClosing with
      | false => exact ⟨'>', rfl, rfl⟩
      | true => exact absurd rfl (hself rfl)
  · rw [← List.cons_append, htag]
    have hlength := congrArg List.length htext
    simp only [List.length_append, List.length_cons] at hlength
    congr 2
    show name.length + 1 + size = _
    omega

theorem Attribute.isReadable_of_isWritable (h : a.isWritable = true) : a.isReadable = true := by
  cases a with
  | spread source =>
      rw [Attribute.isWritable, Bool.and_eq_true] at h
      exact h.2
  | property name value =>
      cases value with
      | none => exact h
      | some value =>
          cases value with
          | literal text => exact h
          | expression source =>
              rw [Attribute.isWritable, Bool.and_eq_true] at h
              exact h.1

/-- Code with balanced braces ends where it was written. -/
theorem groupsEnd_of_isWritable (h : ∀ a ∈ attributes, a.isWritable = true) :
    GroupsEnd selfClosing rest attributes := by
  induction attributes with
  | nil => trivial
  | cons a attributes ih =>
      obtain ⟨ha, hattributes⟩ := List.forall_mem_cons.mp h
      refine ⟨?_, ih hattributes⟩
      cases a with
      | spread source =>
          rintro g ⟨⟩
          rw [Attribute.isWritable, Bool.and_eq_true] at ha
          have hdots : isCode ("...".toList ++ source) = true := by
            simpa [isCode, balanced] using ha.1
          have hends := groupLength?_code hdots (behindName attributes selfClosing rest)
          simpa using hends
      | property name value =>
          cases value with
          | none => exact fun g hg => by cases hg
          | some value =>
              cases value with
              | literal text => exact fun g hg => by cases hg
              | expression source =>
                  rintro g ⟨⟩
                  rw [Attribute.isWritable, Bool.and_eq_true] at ha
                  have hends := groupLength?_code ha.2 (behindName attributes selfClosing rest)
                  simpa using hends

/-- A new opening tag with attributes that can be written is read back before every text. -/
theorem tagged_opening_of_isWritable (hname : isElementName name = true ∨ (name = [] ∧ attributes = []))
    (hself : selfClosing = true → name ≠ []) (hattributes : ∀ a ∈ attributes, a.isWritable = true)
    (rest : List Char) :
    Tagged (.opening ⟨name, ⟨attributes, selfClosing⟩⟩) (openingText name attributes selfClosing) rest := by
  have htag := isTagName_of_isElementName hname
  refine tagged_opening htag hself (fun a ha => Attribute.isReadable_of_isWritable (hattributes a ha))
    (groupsEnd_of_isWritable hattributes) ?_
  obtain ⟨c, behind, hbehind, hc⟩ := exists_behindName attributes selfClosing rest
  rw [openingText_append, hbehind]
  exact autolinkLength?_name (scheme_not_mem (hname.imp_right And.left)) htag.mail_not_mem hc

/-- A new closing tag is read back before every text. -/
theorem tagged_closing (hchars : name.all isNameChar = true) (rest : List Char) :
    Tagged (.closing name) (closingText name) rest := by
  have htext : closingText name ++ rest = '<' :: '/' :: (name ++ '>' :: rest) := by
    simp [closingText]
  refine ⟨rfl, ?_⟩
  rw [htext, Piece.ofBracket_eq_closing_iff]
  refine ⟨rfl, ?_⟩
  have hstop : ∀ c, ('>' :: rest).head? = some c → isNameChar c = false ∧ isAsciiBlank c = false := by
    rintro c ⟨⟩
    decide
  have hgap : blankLength (name ++ '>' :: rest) = 0 := by
    refine blankLength_eq_zero fun c hc => ?_
    cases name with
    | nil => exact (hstop c hc).2
    | cons d name =>
        have hd := List.all_eq_true.mp hchars c (by rw [Option.some.inj hc]; exact List.mem_cons_self)
        have hblanks : ∀ e, isNameChar e = false → c ≠ e := by
          rintro e he rfl
          rw [he] at hd
          cases hd
        simp [isAsciiBlank, hblanks ' ' (by decide), hblanks '\t' (by decide), hblanks '\n' (by decide),
          hblanks '\x0c' (by decide), hblanks '\r' (by decide)]
  have hend : blankLength ('>' :: rest) = 0 := blankLength_eq_zero fun c hc => (hstop c hc).2
  have htaken := takeWhile_isNameChar hchars fun c hc => (hstop c hc).1
  simp only [readClosingTag, List.drop_succ_cons, List.drop_zero, hgap, Nat.zero_add, htaken, List.drop_left,
    hend, Nat.add_zero]
  congr 2
  simp [closingText]
  omega

end Tags

/-! ## Prose -/

section Proses

variable {value rest w : List Char} {outside line : Bool}

/-- What can come behind prose: the end of the text, a tag or an expression. -/
def EndsProse (rest : List Char) : Prop :=
  rest = [] ∨ rest.head? = some '<' ∨ rest.head? = some '\x7b'

/-- A run of marks ends with its line at the latest. -/
theorem takeWhile_restOfLine {mark : Char} (hmark : mark ≠ '\n') (s : List Char) :
    (restOfLine s).takeWhile (· == mark) = s.takeWhile (· == mark) := by
  induction s with
  | nil => rfl
  | cons c s ih =>
      by_cases hc : c = mark
      · subst hc
        rw [restOfLine, List.takeWhile_cons_of_pos (by simpa using hmark), List.takeWhile_cons_of_pos (by simp),
          List.takeWhile_cons_of_pos (by simp)]
        exact congrArg (c :: ·) ih
      · by_cases hfeed : c = '\n'
        · simp [restOfLine, hfeed, hmark.symm]
        · simp [restOfLine, hfeed, hc]

/-- A run of tildes that is long enough for a fence is in the text that it starts. -/
theorem tildes_of_run (hrest : EndsProse rest)
    (h : 3 ≤ (('~' :: restOfLine (w ++ rest)).takeWhile (· == '~')).length) : ['~', '~', '~'] <:+: '~' :: w := by
  have hstop : rest.takeWhile (· == '~') = [] := by
    cases rest with
    | nil => rfl
    | cons c rest =>
        refine List.takeWhile_cons_of_neg ?_
        rcases hrest with hnil | hhead | hhead
        · cases hnil
        · rw [Option.some.inj hhead]
          decide
        · rw [Option.some.inj hhead]
          decide
  rw [List.takeWhile_cons_of_pos rfl, takeWhile_restOfLine (by decide)] at h
  rcases w with _ | ⟨d, _ | ⟨e, w⟩⟩
  · simp [hstop] at h
  · by_cases hd : d = '~'
    · simp [hd, hstop] at h
    · simp [hd] at h
  · by_cases hd : d = '~'
    · by_cases he : e = '~'
      · subst hd he
        exact (List.prefix_append ['~', '~', '~'] w).isInfix
      · simp [hd, he] at h
    · simp [hd] at h

/-- No fence opens in front of a text without its marks. -/
theorem fence?_eq_none_of_marks (hticks : '\x60' ∉ w) (htildes : ¬ ['~', '~', '~'] <:+: w) (hrest : EndsProse rest) :
    fence? (restOfLine (w ++ rest)) = none := by
  induction w with
  | nil =>
      have hstart : ∀ c t, rest = c :: t → c ≠ '\x60' ∧ c ≠ '~' ∧ isIndent c = false ∧ c ≠ '\n' := by
        rintro c t rfl
        rcases hrest with hnil | hhead | hhead
        · cases hnil
        · rw [Option.some.inj hhead]
          decide
        · rw [Option.some.inj hhead]
          decide
      cases rest with
      | nil => rfl
      | cons c t =>
          obtain ⟨htick, htilde, hindent, hfeed⟩ := hstart c t rfl
          simp [restOfLine, fence?, htick, htilde, hindent, hfeed]
  | cons c w ih =>
      obtain ⟨htick, hbehind⟩ : '\x60' ≠ c ∧ '\x60' ∉ w := by simpa using hticks
      by_cases hfeed : c = '\n'
      · simp [restOfLine, fence?, hfeed]
      have hline : restOfLine (c :: w ++ rest) = c :: restOfLine (w ++ rest) := by
        simp [restOfLine, hfeed]
      rw [hline]
      -- An indent may stand in front of a fence; behind it there has to be a run of marks.
      by_cases hindent : isIndent c = true
      · have hskip : fence? (c :: restOfLine (w ++ rest)) = fence? (restOfLine (w ++ rest)) := by
          simp only [fence?, List.dropWhile_cons, hindent, if_true]
        rw [hskip]
        exact ih hbehind fun h => htildes (h.trans (List.suffix_cons c w).isInfix)
      · by_cases htilde : c = '~'
        · subst htilde
          have hshort : ¬ 3 ≤ (('~' :: restOfLine (w ++ rest)).takeWhile (· == '~')).length :=
            fun h => htildes (tildes_of_run hrest h)
          simp only [fence?, List.dropWhile_cons, hindent, if_false, Bool.false_eq_true, hshort, decide_false,
            Bool.false_and]
          simp
        · simp [fence?, hindent, htick.symm, htilde]

/-- A keyword that a line starts with is in the line. -/
theorem startsWith_of_append {mark : List Char} (hmark : '<' ∉ mark ∧ '\x7b' ∉ mark)
    (hrest : EndsProse rest) (h : startsWith mark (w ++ rest) = true) : startsWith mark w = true := by
  obtain ⟨r, hr⟩ := Option.isSome_iff_exists.mp h
  rcases List.append_eq_append_iff.mp (dropLead?_eq_some_iff.mp hr) with ⟨a, ha, hrest'⟩ | ⟨a, rfl, _⟩
  · cases a with
    | nil =>
        rw [List.append_nil] at ha
        refine Option.isSome_iff_exists.mpr ⟨[], dropLead?_eq_some_iff.mpr ?_⟩
        rw [ha, List.append_nil]
    | cons d a =>
        -- The keyword would go on into what comes behind.
        have hd : d ∈ mark := by simp [ha]
        rw [hrest'] at hrest
        rcases hrest with hnil | hhead | hhead
        · cases hnil
        · rw [Option.some.inj hhead] at hd
          exact absurd hd hmark.1
        · rw [Option.some.inj hhead] at hd
          exact absurd hd hmark.2
  · exact Option.isSome_iff_exists.mpr ⟨a, dropLead?_eq_some_iff.mpr rfl⟩

/-- Whether a text starts with the keyword of a script block. -/
def startsKeyword (s : List Char) : Bool :=
  startsWith "import".toList s || startsWith "export".toList s

theorem startsScript_of_startsKeyword (hrest : EndsProse rest) (h : startsKeyword w = false) :
    startsScript (w ++ rest) = false := by
  rw [Bool.eq_false_iff]
  intro hscript
  rw [startsKeyword, Bool.or_eq_false_iff] at h
  have hkeyword : ∀ {mark r : List Char}, w ++ rest = mark ++ r → startsWith mark (w ++ rest) = true :=
    fun heq => Option.isSome_iff_exists.mpr ⟨_, dropLead?_eq_some_iff.mpr heq⟩
  obtain ⟨r, himport | hexport, _⟩ := startsScript_iff.mp hscript
  · rw [startsWith_of_append (by decide) hrest (hkeyword himport)] at h
    cases h.1
  · rw [startsWith_of_append (by decide) hrest (hkeyword hexport)] at h
    cases h.2

/-- Text without marks is taken character by character, if no line of it starts with a keyword where script blocks
can start. -/
theorem prose_of_marks (hmarks : ∀ c ∈ value, c ≠ '\\' ∧ c ≠ '\x60' ∧ c ≠ '<' ∧ c ≠ '\x7b')
    (htildes : ¬ ['~', '~', '~'] <:+: value)
    (hlines : outside = true → ∀ u w, value = u ++ w → lineAfter line u = true → startsKeyword w = false)
    (hrest : EndsProse rest) : Prose outside line value rest := by
  induction value generalizing line with
  | nil => exact .nil line rest
  | cons c value ih =>
      obtain ⟨hc, hbehind⟩ := List.forall_mem_cons.mp hmarks
      refine .cons (List.cons_ne_nil c []) (Piece.ofText_char ?_ ?_ hc) (ih hbehind ?_ ?_) rfl
      · intro hline houtside
        exact startsScript_of_startsKeyword hrest (hlines houtside [] (c :: value) rfl hline)
      · intro _
        exact fence?_eq_none_of_marks (fun hmem => (hmarks _ hmem).2.1 rfl) htildes hrest
      · exact fun h => htildes (h.trans (List.suffix_cons c value).isInfix)
      · intro houtside u w hsplit hline
        refine hlines houtside (c :: u) w (by rw [hsplit]; rfl) ?_
        rw [← List.singleton_append, lineAfter_append]
        exact hline

/-- What starts behind a line feed starts with one of the lines. -/
theorem restOfLine_mem_pieces {u : List Char} (h : lineAfter line u = true) :
    restOfLine w ∈ pieces (u ++ w) := by
  obtain ⟨ls, hpieces, _, _⟩ := pieces_eq_cons w
  have hfirst : restOfLine w ∈ pieces w := by
    rw [hpieces]
    exact List.mem_cons_self
  rcases eq_nil_or_feed_of_lineAfter h with rfl | hfeed
  · exact hfirst
  · obtain ⟨body, rfl⟩ := List.getLast?_eq_some_iff.mp hfeed
    rw [List.append_assoc, List.singleton_append, pieces_append_feed]
    exact List.mem_append_right _ hfirst

theorem startsWith_restOfLine {mark : List Char} (hmark : '\n' ∉ mark)
    (h : startsWith mark w = true) : startsWith mark (restOfLine w) = true := by
  obtain ⟨r, hr⟩ := Option.isSome_iff_exists.mp h
  have hmarkline : ∀ c ∈ mark, (c != '\n') = true := by
    intro c hc
    have hne : c ≠ '\n' := fun heq => hmark (heq ▸ hc)
    simpa using hne
  refine Option.isSome_iff_exists.mpr ⟨restOfLine r, dropLead?_eq_some_iff.mpr ?_⟩
  rw [dropLead?_eq_some_iff.mp hr, restOfLine, List.takeWhile_append_of_pos hmarkline, restOfLine]

/-- Prose is read as such before a tag, an expression or the end of the text. -/
theorem prose_of_isProse (h : isProse value = true) (hrest : EndsProse rest) :
    value ≠ [] ∧ Prose outside line value rest := by
  simp only [isProse, Bool.and_eq_true] at h
  obtain ⟨⟨hne, hmarks⟩, hlines⟩ := h
  have hfree : ∀ c ∈ value, (c ≠ '\\' ∧ c ≠ '\x60' ∧ c ≠ '<' ∧ c ≠ '\x7b') ∧ c ≠ '~' := by
    intro c hc
    have hc' := List.all_eq_true.mp hmarks c hc
    simpa [and_assoc] using hc'
  refine ⟨?_, prose_of_marks (fun c hc => (hfree c hc).1) ?_ ?_ hrest⟩
  · rintro rfl
    cases hne
  · intro htildes
    exact (hfree '~' (htildes.subset List.mem_cons_self)).2 rfl
  · rintro _ u w rfl hline
    have hfirst := List.all_eq_true.mp hlines _ (restOfLine_mem_pieces (w := w) hline)
    rw [Bool.and_eq_true, Bool.not_eq_true', Bool.not_eq_true'] at hfirst
    rw [startsKeyword, Bool.or_eq_false_iff]
    constructor
    · rw [Bool.eq_false_iff]
      intro himport
      rw [startsWith_restOfLine (by decide) himport] at hfirst
      cases hfirst.1
    · rw [Bool.eq_false_iff]
      intro hexport
      rw [startsWith_restOfLine (by decide) hexport] at hfirst
      cases hfirst.2

end Proses

/-! ## Documents -/

namespace Composed

variable {ns : List Node} {rest : List Char} {outside line : Bool}

theorem endsProse (h : Composed ns) (hnext : ∀ n ∈ ns.head?, n.isText = false)
    (hrest : rest = [] ∨ rest.head? = some '<') : EndsProse (Node.printAll ns ++ rest) := by
  cases h with
  | nil =>
      rcases hrest with rfl | hrest
      · exact .inl rfl
      · exact .inr (.inl hrest)
  | text _ _ _ => exact absurd (hnext _ rfl) Bool.noConfusion
  | expression _ _ => exact .inr (.inr (by simp [Node.print]))
  | element _ _ _ _ =>
      refine .inr (.inl ?_)
      simp only [Node.printAll_cons, Node.print, Tag.print, Tag.head]
      split
      · rfl
      · rfl

/-- An element prints as its tags around its children. -/
theorem print_element {name : List Char} {attributes : List Attribute} {children : List Node} :
    Node.print (.element { name := name, attributes := attributes } children) =
      if children.isEmpty && !name.isEmpty then openingText name attributes true
      else openingText name attributes false ++ Node.printAll children ++ closingText name := by
  simp only [Node.print, Tag.print, Tag.head, openingText, closingText, tagStop]
  split
  · rfl
  · simp

/-- Every node is recognised where it is printed. -/
theorem reads (h : Composed ns) (hrest : rest = [] ∨ rest.head? = some '<') :
    Reads outside line ns rest := by
  induction h generalizing outside line rest with
  | nil => exact .nil outside line rest
  | text hprose hnext hcomposed ih =>
      obtain ⟨hne, hread⟩ := prose_of_isProse hprose (hcomposed.endsProse hnext hrest)
      exact .text hne hread (ih hrest)
  | expression hcode _ ih => exact .expression (groupLength?_code hcode _) (ih hrest)
  | @element name attributes children ns hname hattributes _ _ ihchildren ih =>
      have hprint := @print_element name attributes children
      split at hprint
      · -- An element with a name and without children closes itself.
        rename_i hchildless
        rw [Bool.and_eq_true, List.isEmpty_iff] at hchildless
        obtain ⟨rfl, hnamed⟩ := hchildless
        have hne : name ≠ [] := by
          rintro rfl
          cases hnamed
        refine .childless (fun _ hsource => by cases hsource) ?_ (ih hrest)
        rw [hprint]
        exact tagged_opening_of_isWritable hname (fun _ => hne) hattributes _
      · refine .enclosing (fun _ hsource => by cases hsource) hprint ?_ (ihchildren (.inr rfl)) ?_ (ih hrest)
        · exact tagged_opening_of_isWritable hname (fun hself => by cases hself) hattributes _
        · exact tagged_closing (isTagName_of_isElementName hname).chars _

/-- Nothing of such nodes is untold by their text. -/
theorem plainAll_eq (h : Composed ns) : Node.plainAll ns = ns := by
  induction h with
  | nil => rfl
  | @text value ns _ hnext _ ih =>
      rw [Node.plainAll, ih, Node.plainOnto]
      cases ns with
      | nil => rfl
      | cons n ns =>
          cases n with
          | text next => exact absurd (hnext _ rfl) Bool.noConfusion
          | script | expression | element => rfl
  | expression _ _ ih => rw [Node.plainAll, ih, Node.plainOnto]
  | element _ _ _ _ ihchildren ih => rw [Node.plainAll, ih, Node.plainOnto, ihchildren]

end Composed

/-- A document that was put together is read back from its text, up to positions, whether nodes start their
lines, and the text of tags. -/
theorem parse_print_of_composed {d : Document} (h : Composed d.children) :
    ∃ e, parse d.print = .ok e ∧ e.bare = d := by
  obtain ⟨e, hparse, hplain⟩ := Reads.parse (h.reads (.inl rfl))
  refine ⟨e, hparse, ?_⟩
  rw [← plain_eq_bare_of_parse hparse, hplain, Document.plain, h.plainAll_eq]

/-- A fragment that prints as `<>A <B.c x='"' y={{1}} z {...p}>{q}<D /></B.c></>`. -/
theorem parse_print_of_composed_fragment : ∃ e,
    parse (Document.mk [.element { name := [] } [.text "A ".toList,
      .element { name := "B.c".toList, attributes := [.property ['x'] (some (.literal ['\x22'])),
        .property ['y'] (some (.expression "\x7b1\x7d".toList)), .property ['z'] none, .spread ['p']] }
        [.expression ['q'] false, .element { name := ['D'] } []]]]).print = .ok e ∧
    e.bare = ⟨[.element { name := [] } [.text "A ".toList,
      .element { name := "B.c".toList, attributes := [.property ['x'] (some (.literal ['\x22'])),
        .property ['y'] (some (.expression "\x7b1\x7d".toList)), .property ['z'] none, .spread ['p']] }
        [.expression ['q'] false, .element { name := ['D'] } []]]]⟩ := by
  refine parse_print_of_composed (.element (.inr ⟨rfl, rfl⟩) (by simp) ?_ .nil)
  refine .text (by decide) (by rintro n ⟨⟩; rfl) (.element (.inl (by decide)) (by decide) ?_ .nil)
  exact .expression (by decide) (.element (.inl (by decide)) (by simp) .nil .nil)

end Markup
end StoryDocs
