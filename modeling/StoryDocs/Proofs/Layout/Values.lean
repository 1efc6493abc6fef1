import StoryDocs.Migration
import StoryDocs.Proofs.Layout.Requoting
import StoryDocs.Proofs.Markup.Names
import StoryDocs.Proofs.Story.Attributes

/-!
# Texts in a story module

Attributes and story names are written as strings, one property a line, and the layout of a module exchanges
their quotes.  The string that comes out is one token that denotes the text it was written for, and its key
denotes the name of the attribute.
-/

namespace StoryDocs
namespace Layout

open Text Script Synthesis

/-! ## Strings and keys -/

/-- A string literal on one line that denotes a text, whatever comes behind it. -/
structure IsStringOf (v literal : List Char) : Prop where
  read : ∀ (bound n : Nat) (rest : List Char), literal.length ≤ bound →
    Token.read bound (literal ++ rest) n = .over (.string (String.ofList v)) false [] literal rest n
  line : '\n' ∉ literal ∧ '\r' ∉ literal

/-- A key of an object literal that denotes a name: the name as a word, or as a string. -/
def IsKeyOf (name key : List Char) : Prop :=
  (∀ (bound n : Nat) (rest : List Char), key.length ≤ bound →
    Token.read bound (key ++ ':' :: rest) n =
      .over (.word (String.ofList name) false) false [] key (':' :: rest) n) ∨ IsStringOf name key

theorem isStringOf_written {quote : Char} (hquote : IsQuote quote) (v : List Char) :
    IsStringOf v (written quote v) where
  read bound n rest hbound := @Token.read_written bound n [] rest quote hquote .nil v hbound
  line := by
    have hchar : ∀ c, '\n' ∉ writtenChar quote c ∧ '\r' ∉ writtenChar quote c := by
      intro c
      unfold writtenChar
      rcases hquote with rfl | rfl
      · grind -linarith
      · grind -linarith
    have hends : '\n' ≠ quote ∧ '\r' ≠ quote := by
      rcases hquote with rfl | rfl
      · decide
      · decide
    simp only [written, List.cons_append, List.mem_cons, List.mem_append, List.mem_flatMap,
      List.not_mem_nil, or_false, not_or, not_exists, not_and]
    exact ⟨⟨hends.1, fun c _ => (hchar c).1, hends.1⟩, hends.2, fun c _ => (hchar c).2, hends.2⟩

theorem isKeyOf_word {name : List Char} (hname : IsWord name) : IsKeyOf name name :=
  .inl fun bound n rest hbound =>
    @Token.read_word bound n false [] name (':' :: rest) (skips_blank rfl) hname (endsWord_colon rest) hbound

/-! ## Requoting a string -/

/-- Exchanged quotes: the escapes of the old kind go, and those of the new kind come. -/
theorem requoteContent_written (v : List Char) :
    requoteContent '\x27' '\x22' (v.flatMap (writtenChar '\x27')) = v.flatMap (writtenChar '\x22') := by
  have hchar : ∀ c s, requoteContent '\x27' '\x22' (writtenChar '\x27' c ++ s) =
      writtenChar '\x22' c ++ requoteContent '\x27' '\x22' s := by
    intro c s
    by_cases hslash : c = '\\'
    · subst c
      rfl
    by_cases hsingle : c = '\x27'
    · subst c
      rfl
    by_cases hfeed : c = '\n'
    · subst c
      rfl
    by_cases hreturn : c = '\r'
    · subst c
      rfl
    have hplain : writtenChar '\x27' c = [c] := by simp [writtenChar, hslash, hsingle, hfeed, hreturn]
    rw [hplain, List.singleton_append, requoteContent]
    · by_cases hdouble : c = '\x22'
      · simp [hdouble, writtenChar]
      · simp [hslash, hdouble, hfeed, hreturn, writtenChar]
    · exact fun heq => absurd heq hslash
    · exact fun _ _ heq => absurd heq hslash
  induction v with
  | nil => rfl
  | cons c v ih => rw [List.flatMap_cons, hchar, ih, List.flatMap_cons]

/-- A requoted string is written with the chosen quotes. -/
theorem requote_written (v : List Char) (preferSingle : Bool) :
    ∃ quote, IsQuote quote ∧
      requote (v.flatMap (writtenChar '\x27')) '\x27' preferSingle = written quote v := by
  have hquote := isQuote_chosenQuote (v.flatMap (writtenChar '\x27')) preferSingle
  refine ⟨_, hquote, ?_⟩
  unfold requote
  generalize chosenQuote (v.flatMap (writtenChar '\x27')) preferSingle = quote at hquote ⊢
  rcases hquote with rfl | rfl
  · simp [requoteContent_written, written]
  · simp [written]

/-- The replacement of a string behind some text of its line. -/
theorem requoteIn_quoted {style : Style} (v front rest : List Char) (n : Nat) :
    ∃ quote, IsQuote quote ∧ requoteIn style (front ++ Naming.quoted v ++ rest) n
        ⟨n + front.length, n + front.length + (Naming.quoted v).length⟩ =
      ⟨front.length, front.length + (Naming.quoted v).length, written quote v⟩ := by
  obtain ⟨quote, hquote, hrequote⟩ := requote_written v style.singleQuote
  have hlength : (Naming.quoted v).length = (v.flatMap (writtenChar '\x27')).length + 2 := by
    rw [quoted_eq_written]
    simp [written]
  refine ⟨quote, hquote, ?_⟩
  rw [hlength, ← hrequote, List.append_assoc]
  exact requoteIn_literal front (v.flatMap (writtenChar '\x27')) rest '\x27' n

/-! ## The line of a property -/

/-- The line of a property with a text. -/
def propertyLine (name v : List Char) : List Char :=
  indent ++ Naming.propertyKey name ++ [':', ' '] ++ Naming.quoted v ++ [',']

/-- Where the strings of such a line are, if it starts at `n`: its key, if that is quoted, and its value. -/
def propertySpans (name v : List Char) (n : Nat) : List Span :=
  let value := n + (indent ++ Naming.propertyKey name ++ [':', ' ']).length
  (if Naming.isIdentifierName name then []
    else [⟨n + indent.length, n + indent.length + (Naming.quoted name).length⟩]) ++
      [⟨value, value + (Naming.quoted v).length⟩]

/-- How a key can be written: as the word that the name is, or as a string. -/
def KeyText (name key : List Char) : Prop :=
  (key = name ∧ IsWord name) ∨ ∃ quote, IsQuote quote ∧ key = written quote name

theorem KeyText.isKeyOf {name key : List Char} (h : KeyText name key) : IsKeyOf name key := by
  rcases h with ⟨rfl, hword⟩ | ⟨quote, hquote, rfl⟩
  · exact isKeyOf_word hword
  · exact .inr (isStringOf_written hquote name)

/-- A key starts with neither a blank nor a bracket, and holds no line feed. -/
theorem KeyText.exists_head {name key : List Char} (h : KeyText name key) :
    ∃ c tail, key = c :: tail ∧ isBlank c = false ∧ c ≠ '\x7d' ∧ c ≠ ']' ∧ c ≠ ')' := by
  rcases h with ⟨rfl, c, tail, rfl, hc, _⟩ | ⟨quote, hquote, rfl⟩
  · have hnot : ∀ d, isIdentifierStart d = false → c ≠ d := by
      rintro d hd rfl
      rw [hd] at hc
      cases hc
    exact ⟨c, tail, rfl, isBlank_of_start hc,
      hnot _ (by decide), hnot _ (by decide), hnot _ (by decide)⟩
  · refine ⟨quote, _, rfl, ?_⟩
    rcases hquote with rfl | rfl
    · decide
    · decide

/-- The strings of the line are requoted, and the rest of it is kept. -/
theorem requoteLine_property {style : Style} {name : List Char} (hname : WordKey name) (v : List Char)
    (n : Nat) : ∃ key quote, KeyText name key ∧ IsQuote quote ∧
      requoteLine style (propertyLine name v) n (propertySpans name v n) =
        indent ++ (key ++ [':', ' '] ++ written quote v ++ [',']) := by
  by_cases hidentifier : Naming.isIdentifierName name = true
  · have hkey : Naming.propertyKey name = name := by rw [Naming.propertyKey, if_pos hidentifier]
    obtain ⟨quote, hquote, hvalue⟩ :=
      @requoteIn_quoted style v (indent ++ name ++ [':', ' ']) [','] n
    refine ⟨name, quote, .inl ⟨rfl, hname hidentifier⟩, hquote, ?_⟩
    have hsplice := spliceFrom_cons 0 (indent ++ name ++ [':', ' ']) (Naming.quoted v) (written quote v)
      [','] []
    simp only [Nat.zero_add] at hsplice
    simp only [requoteLine, propertyLine, propertySpans, hkey, hidentifier, if_true, List.nil_append,
      List.map_cons, List.map_nil, hvalue, splice, hsplice]
    simp [spliceFrom]
  · have hkey : Naming.propertyKey name = Naming.quoted name := by
      rw [Naming.propertyKey, if_neg hidentifier]
    obtain ⟨quote, hquote, hvalue⟩ :=
      @requoteIn_quoted style v (indent ++ Naming.quoted name ++ [':', ' ']) [','] n
    obtain ⟨quote', hquote', hname'⟩ :=
      @requoteIn_quoted style name indent ([':', ' '] ++ Naming.quoted v ++ [',']) n
    refine ⟨written quote' name, quote, .inr ⟨quote', hquote', rfl⟩, hquote, ?_⟩
    -- The key is replaced first, and the value in what stands behind it.
    have hfirst := spliceFrom_cons 0 indent (Naming.quoted name) (written quote' name)
      ([':', ' '] ++ Naming.quoted v ++ [',']) [⟨(indent ++ Naming.quoted name ++ [':', ' ']).length,
        (indent ++ Naming.quoted name ++ [':', ' ']).length + (Naming.quoted v).length, written quote v⟩]
    have hsecond := spliceFrom_cons (indent.length + (Naming.quoted name).length) [':', ' ']
      (Naming.quoted v) (written quote v) [','] []
    simp only [Nat.zero_add, List.length_append] at hfirst
    simp only [requoteLine, propertyLine, propertySpans, hkey, hidentifier, Bool.false_eq_true, if_false,
      List.cons_append, List.nil_append, List.map_cons, List.map_nil, List.append_assoc, splice]
      at hname' hvalue hfirst hsecond ⊢
    simp only [hname', hvalue]
    simp only [List.length_append, ← Nat.add_assoc]
    rw [hfirst, hsecond]
    simp [spliceFrom]

/-- A line that starts with code behind its indentation, and ends with code, is indented anew. -/
theorem exists_lay {style : Style} {body : List Char} {c e : Char} (hstart : body.head? = some c)
    (hc : c ≠ ' ') (hstop : body.getLast? = some e) (he : isBlank e = false) (verbatim : Bool) :
    ∃ lead, lead.all isIndent = true ∧ lay style ⟨indent ++ body, verbatim⟩ = lead ++ body := by
  obtain ⟨tail, rfl⟩ := List.head?_eq_some_iff.mp hstart
  have hcontent : (indent ++ c :: tail).dropWhile (· == ' ') = c :: tail := by
    simp [indent, hc]
  have htrim : trimEnd (c :: tail) = c :: tail := dropTail_of_getLast? hstop he
  have hspaces : (indent ++ c :: tail).length - (c :: tail).length = 2 := by
    simp [indent]
  have hindented : ∃ lead, lead.all isIndent = true ∧
      reindent style (indent ++ c :: tail) = lead ++ c :: tail := by
    simp only [reindent, hcontent, htrim, hspaces]
    refine ⟨_, ?_, rfl⟩
    split
    · simp [sourceIndent, isIndent]
    · simp [sourceIndent, isIndent]
  cases verbatim with
  | true => exact ⟨indent, rfl, rfl⟩
  | false => exact hindented

/-! ## The strings that are reported -/

/-- What the reading of a module is taken to report: the strings that start on the line of a property at `n`
are its own. -/
def Reports (fileName text name v : List Char) (n : Nat) : Prop :=
  ∀ items, Module.parse? (featuresOf fileName) text = some items →
    ((Tree.stringsOf items).filter fun s =>
      n ≤ s.start + 1 && s.start < n + (propertyLine name v).length).Perm (propertySpans name v n)

theorem isBroken_slice {front part rest : List Char} (h : '\n' ∉ part) :
    Literals.isBroken (front ++ part ++ rest) ⟨front.length, front.length + part.length⟩ = false := by
  unfold Literals.isBroken
  rw [Nat.add_sub_cancel_left, List.append_assoc, List.drop_left, List.take_left]
  simpa using h

/-- The strings of a property stand on one line. -/
theorem isBroken_propertySpans {above below name v : List Char} {s : Span}
    (hs : s ∈ propertySpans name v (above.length + 1)) :
    Literals.isBroken (above ++ '\n' :: (propertyLine name v ++ '\n' :: below)) s = false := by
  have hvalue := @isBroken_slice (above ++ '\n' :: (indent ++ Naming.propertyKey name ++ [':', ' ']))
    (Naming.quoted v) (',' :: '\n' :: below) (feed_not_mem_quoted v)
  simp only [propertySpans, List.mem_append, List.mem_singleton] at hs
  rcases hs with hs | rfl
  · split at hs
    · cases hs
    · rename_i hidentifier
      have hkey := @isBroken_slice (above ++ '\n' :: indent) (Naming.quoted name)
        (':' :: ' ' :: (Naming.quoted v ++ ',' :: '\n' :: below)) (feed_not_mem_quoted name)
      rw [List.mem_singleton] at hs
      subst hs
      rw [propertyLine, Naming.propertyKey, if_neg hidentifier]
      simp only [List.append_assoc, List.cons_append, List.nil_append, List.length_append,
        List.length_cons, ← Nat.add_assoc, Nat.add_right_comm _ _ 1] at hkey ⊢
      exact hkey
  · rw [propertyLine]
    simp only [List.append_assoc, List.cons_append, List.nil_append, List.length_append,
      List.length_cons, ← Nat.add_assoc, Nat.add_right_comm _ _ 1] at hvalue ⊢
    exact hvalue

theorem start_propertySpans {name v : List Char} {n : Nat} :
    (propertySpans name v n).Pairwise (fun a b => a.start < b.start) ∧
      ∀ s ∈ propertySpans name v n, n ≤ s.start := by
  unfold propertySpans
  dsimp only
  split
  · refine ⟨List.pairwise_singleton _ _, ?_⟩
    rintro s hs
    rw [List.nil_append, List.mem_singleton] at hs
    subst hs
    show n ≤ n + _
    omega
  · simp only [List.cons_append, List.nil_append, List.pairwise_cons, List.not_mem_nil, false_implies,
      implies_true, List.Pairwise.nil, and_true, List.mem_cons, or_false, forall_eq_or_imp, forall_eq,
      List.length_append, List.length_cons]
    omega

/-- The strings that the layout finds on the line of a property are its own. -/
theorem stringsOn_property {fileName above below name v text : List Char} {items : List Tree}
    (htext : text = above ++ '\n' :: (propertyLine name v ++ '\n' :: below))
    (hreports : Reports fileName text name v (above.length + 1))
    (hparse : Module.parse? (featuresOf fileName) text = some items) :
    stringsOn (Literals.ofModule text items) (above.length + 1) (propertyLine name v) =
      propertySpans name v (above.length + 1) := by
  obtain ⟨hsorted, _⟩ := @start_propertySpans name v (above.length + 1)
  have hperm : (stringsOn (Literals.ofModule text items) (above.length + 1) (propertyLine name v)).Perm
      (propertySpans name v (above.length + 1)) := by
    have hkept : (propertySpans name v (above.length + 1)).filter (fun s => !Literals.isBroken text s) =
        propertySpans name v (above.length + 1) := by
      refine List.filter_eq_self.mpr fun s hs => ?_
      rw [htext, isBroken_propertySpans hs]
      rfl
    have hreported := (hreports items hparse).filter fun s => !Literals.isBroken text s
    rw [hkept, List.filter_filter] at hreported
    refine ((List.mergeSort_perm _ _).filter _).trans ?_
    rw [List.filter_filter]
    refine List.Perm.trans (List.Perm.of_eq ?_) hreported
    exact List.filter_congr fun s _ => Bool.and_comm _ _
  refine List.Perm.eq_of_pairwise ?_ ((Sorted.ofModule text items).filter _)
    (hsorted.imp fun h => Nat.le_of_lt h) hperm
  -- No two strings of the line start at the same place.
  intro a b ha hb hab hba
  have hinj : (propertySpans name v (above.length + 1)).Pairwise (fun a b => a.start ≠ b.start) :=
    hsorted.imp fun h => Nat.ne_of_lt h
  have hsymm : Std.Symm fun a b : Span => a.start ≠ b.start := ⟨fun _ _ h => h.symm⟩
  by_contra hne
  exact hinj.forall (hperm.mem_iff.mp ha) hb hne (Nat.le_antisymm hab hba)

/-! ## The text of a module -/

/-- The layout of a part of a module, with the literals of the whole; a module that cannot be read stays as
it is. -/
def layPart (style : Style) (fileName whole part : List Char) : List Char :=
  match Module.parse? (featuresOf fileName) whole with
  | none => part
  | some items => layText style (Literals.ofModule whole items) part

theorem layOut_eq (o : Options) (text fileName : List Char) :
    (Migration.layOut o text fileName).1 = layPart o.style fileName text text := by
  unfold Migration.layOut format layPart
  cases Module.parse? (featuresOf fileName) text with
  | none => rfl
  | some items => rfl

/-- A property with a text stands on a line of its own, whatever properties stand around it. -/
theorem renderObject_property (above below name v : List Char) (ps qs : List (List Char)) :
    ∃ rest, above ++ renderObject (ps ++ keyed name (Naming.quoted v) :: qs) ++ below =
      above ++ '\x7b' :: laidMembers ps ++ '\n' :: (propertyLine name v ++ '\n' :: rest) := by
  have hfeed : '\n' ∉ keyed name (Naming.quoted v) := by
    simp only [keyed, List.mem_append, List.mem_cons, not_or]
    exact ⟨feed_not_mem_propertyKey name, by decide, by decide, feed_not_mem_quoted v⟩
  have hne : keyed name (Naming.quoted v) ≠ [] := by simp [keyed]
  have hline : indentProperty (keyed name (Naming.quoted v)) ++ [','] = propertyLine name v := by
    rw [indentProperty, lines_of_not_mem hfeed hne]
    simp [unlines, propertyLine, keyed]
  obtain ⟨rest, hrest⟩ : ∃ rest, laidMembers qs ++ ['\n', '\x7d'] = '\n' :: rest := by
    cases qs with
    | nil => exact ⟨['\x7d'], rfl⟩
    | cons q qs => exact ⟨_, rfl⟩
  refine ⟨rest ++ below, ?_⟩
  have hmembers : laidMembers (ps ++ keyed name (Naming.quoted v) :: qs) =
      laidMembers ps ++ '\n' :: (propertyLine name v ++ laidMembers qs) := by
    simp [laidMembers, ← hline]
  have hobject : renderObject (ps ++ keyed name (Naming.quoted v) :: qs) =
      '\x7b' :: laidMembers ps ++ '\n' :: (propertyLine name v ++ (laidMembers qs ++ ['\n', '\x7d'])) := by
    rw [renderObject_eq (by simp), hmembers]
    simp
  rw [hobject, hrest]
  simp

theorem wordKey_of_isAttributeName {name : List Char} (h : Markup.isAttributeName name = true) :
    WordKey name := by
  intro hidentifier
  obtain ⟨c, tail, rfl, hc, hall⟩ := Markup.exists_of_isAttributeName h
  have hpart : ∀ d, Markup.isNameChar d = true → Naming.continuesName d = true →
      isIdentifierPart d = true := by
    intro d hname hcontinues
    have hnot : ∀ e, Naming.continuesName e = false → d ≠ e := by
      rintro e he rfl
      rw [he] at hcontinues
      cases hcontinues
    have hpoint := hnot '.' (by decide)
    have hcolon := hnot ':' (by decide)
    have hdash := hnot '-' (by decide)
    simp only [Markup.isNameChar, isAsciiAlphanumeric, Bool.or_eq_true, beq_iff_eq, hpoint, hcolon, hdash,
      or_false] at hname
    simp only [isIdentifierPart, isIdentifierStart, Bool.or_eq_true, beq_iff_eq]
    tauto
  rw [List.all_cons, Bool.and_eq_true] at hall
  rw [Naming.isIdentifierName, Bool.and_eq_true] at hidentifier
  refine ⟨c, tail, rfl, ?_, ?_⟩
  · rw [isIdentifierStart, ← Markup.startsName, hc]
    rfl
  · exact List.all_eq_true.mpr fun d hd =>
      hpart d (List.all_eq_true.mp hall.2 d hd) (List.all_eq_true.mp hidentifier.2 d hd)

/-- A module that is laid out ends with a line feed, unless it is empty. -/
theorem getLast?_layText (style : Style) (literals : Literals) (text : List Char) :
    layText style literals text = [] ∨ (layText style literals text).getLast? = some '\n' := by
  unfold layText layLines
  dsimp only
  generalize dropEmpty _ = written
  cases written with
  | nil => exact .inl rfl
  | cons l ls => exact .inr (by simp [List.flatMap_append])

/-- A text of whole lines. -/
def EndsLine (text : List Char) : Prop :=
  text = [] ∨ text.getLast? = some '\n'

theorem EndsLine.append {text blanks : List Char} (h : EndsLine text)
    (hblanks : blanks.all (· == '\n') = true) : EndsLine (text ++ blanks) := by
  rcases List.eq_nil_or_concat blanks with rfl | ⟨front, c, rfl⟩
  · rwa [List.append_nil]
  · rw [List.concat_eq_append, List.all_append, Bool.and_eq_true] at hblanks
    have hc : c = '\n' := by simpa using hblanks.2
    exact .inr (by simp [hc])

/-- A requoted property that starts and ends with code is laid out as a line of its own, with its comma or
without. -/
theorem layText_property {style : Style} {literals : Literals} {above line body : List Char} {c e : Char}
    (habove : HoldsCode above) (hsorted : Sorted literals.strings) (hline : '\n' ∉ line)
    (hstrings : ∀ s ∈ stringsOn literals (above.length + 1) line, above.length + 1 ≤ s.start)
    (hrequoted : requoteLine style line (above.length + 1)
      (stringsOn literals (above.length + 1) line) = indent ++ (body ++ [',']))
    (hstart : body.head? = some c) (hc : isBlank c = false ∧ c ≠ '\x7d' ∧ c ≠ ']' ∧ c ≠ ')')
    (hstop : body.getLast? = some e) (he : isBlank e = false) (below : List Char) :
    ∃ blanks lead comma back, blanks.all (· == '\n') = true ∧ lead.all isIndent = true ∧
      comma ∈ [[], [',']] ∧
      layText style literals (above ++ '\n' :: (line ++ '\n' :: below)) =
        layText style literals (above ++ ['\n']) ++ blanks ++ (lead ++ (body ++ comma)) ++ '\n' :: back := by
  obtain ⟨tail, rfl⟩ := List.head?_eq_some_iff.mp hstart
  obtain ⟨hblank, hbrace, hbracket, hparen⟩ := hc
  have hspace : c ≠ ' ' := by
    rintro rfl
    cases hblank
  -- The line ends with the comma or, where that is dropped, with the end of the property.
  have hcut : ∀ cut, cut = indent ++ (c :: tail ++ [',']) ∨
      dropComma (indent ++ (c :: tail ++ [','])) = some cut →
        ∃ comma ∈ [[], [',']], cut = indent ++ (c :: tail ++ comma) := by
    rintro cut (rfl | hcut)
    · exact ⟨[','], by simp, rfl⟩
    · refine ⟨[], by simp, ?_⟩
      have htrim : trimEnd (indent ++ (c :: tail ++ [','])) = indent ++ (c :: tail ++ [',']) :=
        dropTail_of_getLast? (by rw [← List.append_assoc, List.getLast?_concat])
          (by decide : isBlank ',' = false)
      rw [dropComma, htrim, dropTrail?_eq_some_iff, ← List.append_assoc] at hcut
      rw [← List.append_cancel_right hcut, List.append_nil]
  have hlay : ∀ comma ∈ [[], [',']], ∀ verbatim, ∃ lead, lead.all isIndent = true ∧
      lay style ⟨indent ++ (c :: tail ++ comma), verbatim⟩ = lead ++ (c :: tail ++ comma) := by
    intro comma hcomma verbatim
    rw [List.mem_cons, List.mem_singleton] at hcomma
    rcases hcomma with rfl | rfl
    · exact exists_lay rfl hspace (by rw [List.append_nil]; exact hstop) he verbatim
    · exact exists_lay rfl hspace List.getLast?_concat (by decide : isBlank ',' = false) verbatim
  have hopen : startsClosing (indent ++ (c :: tail ++ [','])) = false := by
    have htrim : trimStart (indent ++ (c :: tail ++ [','])) = c :: tail ++ [','] := by
      show (c :: tail ++ [',']).dropWhile isBlank = _
      rw [List.cons_append, List.dropWhile_cons_of_neg (by simp [hblank])]
    rw [startsClosing, htrim]
    simp [hbrace, hbracket, hparen]
  have hcode : ∀ cut, cut = indent ++ (c :: tail ++ [',']) ∨
      dropComma (indent ++ (c :: tail ++ [','])) = some cut →
        allBlank cut = false ∧ reindent style cut ≠ [] := by
    intro cut hcut'
    obtain ⟨comma, hcomma, rfl⟩ := hcut cut hcut'
    obtain ⟨lead, _, hlead⟩ := hlay comma hcomma false
    constructor
    · rw [allBlank, List.all_eq_false]
      exact ⟨c, by simp, by simp [hblank]⟩
    · intro hnil
      have hempty := hlead.symm.trans hnil
      simp at hempty
  obtain ⟨blanks, cut, back, verbatim, hblanks, htail, hlaid⟩ :=
    layText_line habove hsorted hline hstrings hrequoted hopen hcode below
  obtain ⟨comma, hcomma, rfl⟩ := hcut cut htail
  obtain ⟨lead, hlead, hindented⟩ := hlay comma hcomma verbatim
  exact ⟨blanks, lead, comma, back, hblanks, hlead, hcomma, by rw [hlaid, hindented]⟩

/-- The line of a property is laid out as a line of its own, below the layout of what stands above it. -/
theorem layPart_property (style : Style) {fileName above below name v text : List Char}
    (habove : HoldsCode above) (hname : WordKey name)
    (htext : text = above ++ '\n' :: (propertyLine name v ++ '\n' :: below))
      (hreports : Reports fileName text name v (above.length + 1)) :
    ∃ blanks lead key literal comma back,
      layPart style fileName text text = layPart style fileName text (above ++ ['\n']) ++ blanks ++
        (lead ++ key ++ [':', ' '] ++ literal ++ comma) ++ '\n' :: back ∧
      EndsLine (layPart style fileName text (above ++ ['\n']) ++ blanks) ∧
      blanks.all (· == '\n') = true ∧ lead.all isIndent = true ∧ IsKeyOf name key ∧
      IsStringOf v literal ∧ comma ∈ [[], [',']] := by
  unfold layPart
  cases hparse : Module.parse? (featuresOf fileName) text with
  | none =>
      -- The module stays as it is.
      have hkey : KeyText name (Naming.propertyKey name) := by
        unfold Naming.propertyKey
        split
        · rename_i hidentifier
          exact .inl ⟨rfl, hname hidentifier⟩
        · exact .inr ⟨_, .inr rfl, rfl⟩
      refine ⟨[], indent, Naming.propertyKey name, Naming.quoted v, [','], below, ?_, .inr (by simp), rfl, rfl,
        hkey.isKeyOf, isStringOf_written (.inr rfl) v, by simp⟩
      rw [htext, propertyLine]
      simp
  | some items =>
      have hstrings := stringsOn_property htext hreports hparse
      obtain ⟨key, quote, hkey, hquote, hrequoted⟩ :=
        @requoteLine_property style name hname v (above.length + 1)
      obtain ⟨c, tail, hhead, hc⟩ := hkey.exists_head
      have hquoteBlank : isBlank quote = false := by
        rcases hquote with rfl | rfl
        · rfl
        · rfl
      have hfeed : '\n' ∉ propertyLine name v := by
        simp only [propertyLine, List.mem_append, List.mem_cons, List.not_mem_nil, or_false, not_or]
        exact ⟨⟨⟨⟨by decide, feed_not_mem_propertyKey name⟩, by decide, by decide⟩, feed_not_mem_quoted v⟩,
          by decide⟩
      rw [← hstrings] at hrequoted
      have hlast : (key ++ [':', ' '] ++ written quote v).getLast? = some quote := by
        rw [written, ← List.append_assoc, List.getLast?_concat]
      obtain ⟨blanks, lead, comma, back, hblanks, hlead, hcomma, hlaid⟩ :=
        layText_property habove (.ofModule text items) hfeed (by rw [hstrings]; exact start_propertySpans.2)
          hrequoted (by rw [hhead]; rfl) hc hlast hquoteBlank below
      refine ⟨blanks, lead, key, written quote v, comma, back, ?_,
        EndsLine.append (getLast?_layText _ _ _) hblanks, hblanks, hlead, hkey.isKeyOf,
        isStringOf_written hquote v, hcomma⟩
      rw [← htext] at hlaid
      dsimp only
      rw [hlaid]
      simp

/-- A text survives its way into a story module.  A literal attribute and the name of a story are written as
properties, and wherever such a property stands in an object, the module that is written has a line below the
layout of what stands above it with a key that denotes the name and one string that denotes the text. -/
theorem layOut_denotes (o : Options) (fileName above below : List Char) (ps qs : List (List Char))
    (name v : List Char) (hname : Markup.Produces name)
    (hreports : Reports fileName (above ++ renderObject (ps ++ keyed name (Naming.quoted v) :: qs) ++ below)
      name v ((above ++ '\x7b' :: laidMembers ps).length + 1)) :
    (∀ dialect owner, property dialect owner (.property name (some (.literal v))) =
      .ok (keyed name (Naming.quoted v))) ∧
    (∀ dialect (s : Story) properties remarks, s.name = v →
      storyProperties dialect s = .ok (properties, remarks) →
        keyed "name".toList (Naming.quoted v) ∈ properties) ∧
    ∃ front blanks lead key literal comma back,
      front = layPart o.style fileName
        (above ++ renderObject (ps ++ keyed name (Naming.quoted v) :: qs) ++ below)
        (above ++ '\x7b' :: laidMembers ps ++ ['\n']) ++ blanks ∧
      (Migration.layOut o (above ++ renderObject (ps ++ keyed name (Naming.quoted v) :: qs) ++ below)
        fileName).1 = front ++ (lead ++ key ++ [':', ' '] ++ literal ++ comma) ++ '\n' :: back ∧
      EndsLine front ∧ blanks.all (· == '\n') = true ∧ lead.all isIndent = true ∧ IsKeyOf name key ∧
      IsStringOf v literal ∧ comma ∈ [[], [',']] := by
  refine ⟨fun _ _ => rfl, ?_, ?_⟩
  · rintro dialect s properties remarks rfl h
    obtain ⟨⟨render, _⟩, _, h⟩ := bind_eq_ok_iff.mp h
    obtain ⟨attributes, _, h⟩ := bind_eq_ok_iff.mp h
    cases h
    rw [keyed_name]
    exact List.mem_append_right _ List.mem_cons_self
  · obtain ⟨rest, htext⟩ := renderObject_property above below name v ps qs
    have hword := wordKey_of_isAttributeName (Markup.produces_iff.mp hname)
    obtain ⟨blanks, lead, key, literal, comma, back, hlaid, hfront, hrest⟩ :=
      layPart_property o.style ⟨'\x7b', by simp, by decide⟩ hword htext hreports
    exact ⟨_, blanks, lead, key, literal, comma, back, rfl, by rw [layOut_eq, hlaid], hfront, hrest⟩

/-- A text with both kinds of quotes, a backslash and a line feed. -/
def mixedText : List Char :=
  "it\x27s \x22so\x22\\\n".toList

/-- A module with this text as the attribute `aria-label`, between two others. -/
def labelModule : List Char :=
  "export default ".toList ++ renderObject (["a: 1".toList] ++
    keyed "aria-label".toList (Naming.quoted mixedText) :: ["b: \x27c\x27".toList]) ++ ";\n".toList

theorem reports_label : Reports "A.tsx".toList labelModule "aria-label".toList mixedText 25 := by
  have hread : ((Module.parse? (featuresOf "A.tsx".toList) labelModule).map fun items =>
      (Tree.stringsOf items).filter fun s => 25 ≤ s.start + 1 &&
        s.start < 25 + (propertyLine "aria-label".toList mixedText).length) =
      some (propertySpans "aria-label".toList mixedText 25) := by decide +kernel
  intro items hitems
  rw [hitems] at hread
  exact .of_eq (Option.some.inj hread)

theorem layOut_denotes_label : ∃ front lead key literal comma back,
    (Migration.layOut { style := { singleQuote := false, trailingComma := .never } } labelModule
      "A.tsx".toList).1 = front ++ (lead ++ key ++ [':', ' '] ++ literal ++ comma) ++ '\n' :: back ∧
    IsKeyOf "aria-label".toList key ∧ IsStringOf mixedText literal := by
  obtain ⟨_, _, front, _, lead, key, literal, comma, back, _, hlaid, _, _, _, hkey, hliteral, _⟩ :=
    layOut_denotes { style := { singleQuote := false, trailingComma := .never } } "A.tsx".toList
      "export default ".toList ";\n".toList ["a: 1".toList] ["b: \x27c\x27".toList] "aria-label".toList
      mixedText (Markup.produces_iff.mpr (by decide)) reports_label
  exact ⟨front, lead, key, literal, comma, back, hlaid, hkey, hliteral⟩

end Layout
end StoryDocs
